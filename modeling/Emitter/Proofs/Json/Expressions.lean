import Emitter.Proofs.Expression.Everywhere
import Emitter.Proofs.Json.Codecs

/-!
# Types, constants and expressions that read back

Their encodings decode as long as their numbers are finite. Types, constants and expressions contain
values of their own kind, so their codecs are built by induction on the fuel of their readers.
-/

namespace Emitter.Program

open Json (Decoder ofString)
open Json.Decoder
open Number

variable {limit slack : ℕ}

theorem enumId_codec : Codec limit slack anything id enumIdDecoder fun id => ofIndex id.index :=
  (uint64_codec.map EnumId.mk).of EnumId.index (fun _ _ => ⟨trivial, rfl⟩)
    fun _ _ => ⟨trivial, rfl⟩

theorem classId_codec : Codec limit slack anything id classIdDecoder fun id => ofIndex id.index :=
  (uint64_codec.map ClassId.mk).of ClassId.index (fun _ _ => ⟨trivial, rfl⟩)
    fun _ _ => ⟨trivial, rfl⟩

theorem intKind_codec :
    Codec limit slack anything id intKindDecoder fun kind => ofString kind.formName :=
  named_codec (by rintro (_ | _) <;> decide) (by decide)

theorem floatKind_codec :
    Codec limit slack anything id floatKindDecoder fun kind => ofString kind.formName :=
  named_codec (by rintro (_ | _) <;> decide) (by decide)

theorem unaryOp_codec :
    Codec limit slack anything id unaryOpDecoder fun op => ofString op.formName :=
  named_codec (by rintro (_ | _) <;> decide) (by decide)

theorem binaryOp_codec :
    Codec limit slack anything id binaryOpDecoder fun op => ofString op.formName :=
  named_codec (by rintro (_ | _) <;> decide) (by decide)

theorem property_codec :
    Codec limit slack anything id propertyDecoder fun accessor => ofString accessor.formName :=
  named_codec (by rintro (_ | _) <;> decide) (by decide)

theorem method_codec :
    Codec limit slack anything id methodDecoder fun method => ofString method.formName :=
  named_codec (by rintro (_ | _) <;> decide) (by decide)

theorem ty_codec (fuel : ℕ) : Codec fuel 0 anything id (tyDecoder fuel) Ty.toJson := by
  induction fuel with
  | zero => exact .exhausted
  | succ fuel ih =>
    refine .choice fun holds => ?_
    have hint := holds "int" Ty.int rfl (intKind_codec.map _) fun _ _ => ⟨trivial, rfl⟩
    have hfloat := holds "float" Ty.float rfl (floatKind_codec.map _) fun _ _ => ⟨trivial, rfl⟩
    have henum := holds "enum" Ty.enumeration rfl (enumId_codec.map _) fun _ _ => ⟨trivial, rfl⟩
    have hstorage := holds "class_storage" Ty.classStorage rfl (classId_codec.map _) fun _ _ =>
      ⟨trivial, rfl⟩
    have href := holds "class_ref" Ty.classRef rfl (classId_codec.map _) fun _ _ => ⟨trivial, rfl⟩
    have hfields := Fields.cons (.required (ih.mono (Nat.sub_le fuel 1) le_rfl)) <|
      .cons (.optional truth_codec false trivial le_rfl) <|
        .cons (.optional (uint32_codec.nullable nofun) none (by simp) le_rfl) .nil
    have harray := holds "array"
      (fun given => .array given.1 given.2.1 given.2.2.1) rfl
        (.record _ hfields (by decide) (fun _ => rfl)
        (by rintro b (_ | ⟨_, _ | ⟨_, _ | ⟨_, _ | _⟩⟩⟩) <;> simp)) fun _ _ => ⟨trivial, rfl⟩
    refine ⟨fun t _ => ?_, fun name c hc => ?_⟩
    · cases t with
      | void | bool | string | null => exact .bare _ rfl rfl
      | int kind => exact hint.chosen kind trivial
      | float kind => exact hfloat.chosen kind trivial
      | enumeration id => exact henum.chosen id trivial
      | array element storage length => exact harray.chosen (element, storage, length, ()) (by simp)
      | classStorage id => exact hstorage.chosen id trivial
      | classRef id => exact href.chosen id trivial
    · split at hc <;> cases hc
      · exact .bare _ trivial rfl
      · exact .bare _ trivial rfl
      · exact hint.sound _ rfl
      · exact hfloat.sound _ rfl
      · exact .bare _ trivial rfl
      · exact .bare _ trivial rfl
      · exact henum.sound _ rfl
      · exact harray.sound _ rfl
      · exact hstorage.sound _ rfl
      · exact href.sound _ rfl

theorem type_codec (h : limit ≤ nestingLimit + 1) :
    Codec limit slack anything id type Ty.toJson :=
  (ty_codec _).mono h (Nat.zero_le slack)

mutual

/-- All doubles in the value are finite. -/
def ConstValue.isFinite : ConstValue → Bool
  | .float x => x.isFinite
  | .array items => itemsAreFinite items
  | _ => true

def itemsAreFinite : List ConstValue → Bool
  | [] => true
  | item :: rest => item.isFinite && itemsAreFinite rest

end

/-- A double is finite. -/
def Literal.isFinite : Literal → Bool
  | float x => x.isFinite
  | _ => true

theorem itemsAreFinite_iff {items : List ConstValue} :
    itemsAreFinite items = true ↔ ∀ item ∈ items, item.isFinite = true := by
  induction items with
  | nil => simp [itemsAreFinite]
  | cons item rest ih => simp [itemsAreFinite, ih]

theorem constItemForms_eq (floatForm : Binary64 → Json) (items : List ConstValue) :
    constItemForms floatForm items = items.map (ConstValue.toJson floatForm) := by
  induction items with
  | nil => rfl
  | cons item rest ih => rw [constItemForms, ih, List.map_cons]

theorem constValue_codec (fuel : ℕ) :
    Codec fuel 0 (fun v => v.isFinite = true) id (constValueDecoder fuel)
      (ConstValue.toJson ofFloat) := by
  induction fuel with
  | zero => exact .exhausted
  | succ fuel ih =>
    refine .choice fun holds => ?_
    have hint := holds "int" ConstValue.int rfl (int64_codec.map _) fun _ _ => ⟨rfl, rfl⟩
    have hfloat := holds "float" ConstValue.float rfl (float_codec.map _) fun _ h => ⟨h, rfl⟩
    have hbool := holds "bool" ConstValue.bool rfl (truth_codec.map _) fun _ _ => ⟨rfl, rfl⟩
    have hstr := holds "str" ConstValue.str rfl (text_codec.map _) fun _ _ => ⟨rfl, rfl⟩
    have henum := holds "enum_value" (fun given => .enumValue given.1 given.2.1) rfl
      (.record _ (.cons (.required enumId_codec) <| .cons (.required uint64_codec) .nil)
        (by decide) (fun _ => rfl) (by rintro b (_ | ⟨_, _ | ⟨_, _ | _⟩⟩) <;> simp)) fun _ _ =>
          ⟨rfl, rfl⟩
    have harray := holds "array" ConstValue.array rfl
      ((Codec.list (ih.mono (Nat.sub_le fuel 1) le_rfl)).map _) fun items h =>
        ⟨itemsAreFinite_iff.mpr h, by rw [ConstValue.toJson, constItemForms_eq]; rfl⟩
    refine ⟨fun v hv => ?_, fun name c hc => ?_⟩
    · cases v with
      | int n => exact hint.chosen n trivial
      | float x => exact hfloat.chosen x hv
      | bool b => exact hbool.chosen b trivial
      | str s => exact hstr.chosen s trivial
      | enumValue id index => exact henum.chosen (id, index, ()) (by simp)
      | array items => exact harray.chosen items (itemsAreFinite_iff.mp hv)
    · split at hc <;> cases hc
      · exact hint.sound _ rfl
      · exact hfloat.sound _ rfl
      · exact hbool.sound _ rfl
      · exact hstr.sound _ rfl
      · exact henum.sound _ rfl
      · exact harray.sound _ rfl

theorem literal_codec :
    Codec limit slack (fun v => v.isFinite = true) id literalDecoder (Literal.toJson ofFloat) := by
  refine .choice fun holds => ?_
  have hint := holds "int" Literal.int rfl (int64_codec.map _) fun _ _ => ⟨rfl, rfl⟩
  have hfloat := holds "float" Literal.float rfl (float_codec.map _) fun _ h => ⟨h, rfl⟩
  have hbool := holds "bool" Literal.bool rfl (truth_codec.map _) fun _ _ => ⟨rfl, rfl⟩
  have hstr := holds "str" Literal.str rfl (text_codec.map _) fun _ _ => ⟨rfl, rfl⟩
  refine ⟨fun v hv => ?_, fun name c hc => ?_⟩
  · cases v with
    | int n => exact hint.chosen n trivial
    | float x => exact hfloat.chosen x hv
    | bool b => exact hbool.chosen b trivial
    | str s => exact hstr.chosen s trivial
    | null => exact .bare _ rfl rfl
  · split at hc <;> cases hc
    · exact hint.sound _ rfl
    · exact hfloat.sound _ rfl
    · exact hbool.sound _ rfl
    · exact hstr.sound _ rfl
    · exact .bare _ rfl rfl

theorem callee_codec : Codec limit slack anything id calleeDecoder Callee.toJson := by
  refine .choice fun holds => ?_
  have hbuiltin := holds "builtin" Callee.builtin rfl (method_codec.map _) fun _ _ =>
    ⟨trivial, rfl⟩
  have huser := holds "user" (fun given => .user given.1 given.2.1 given.2.2.1) rfl
    (.record _ (.cons (.required classId_codec) <| .cons (.required text_codec) <|
      .cons (.optional truth_codec false trivial (Nat.zero_le _)) .nil) (by decide) (fun _ => rfl)
      (by rintro b (_ | ⟨_, _ | ⟨_, _ | ⟨_, _ | _⟩⟩⟩) <;> simp)) fun _ _ => ⟨trivial, rfl⟩
  refine ⟨fun callee _ => ?_, fun name c hc => ?_⟩
  · cases callee with
    | builtin method => exact hbuiltin.chosen method trivial
    | user owner name isStatic => exact huser.chosen (owner, name, isStatic, ()) (by simp)
  · split at hc <;> cases hc
    · exact hbuiltin.sound _ rfl
    · exact huser.sound _ rfl

/-- A callee nests. -/
theorem calleeDecoder_zero (j : Json) : calleeDecoder 0 j = none := by
  unfold calleeDecoder Json.Decoder.choice
  split
  · split
    · rename_i hcase
      beta_reduce at hcase
      split at hcase <;> cases hcase
    · rfl
  · contradiction
  · rfl

/-- The literal, if the expression is one, is finite. -/
def Expr.isFiniteHere : Expr → Bool
  | .literal value _ => value.isFinite
  | _ => true

/-- All literals in the expression are finite. -/
def Expr.IsFinite (e : Expr) : Prop := e.everywhere Expr.isFiniteHere = true

instance (e : Expr) : Decidable e.IsFinite := inferInstanceAs (Decidable (_ = true))

theorem Expr.isFinite_iff {e : Expr} :
    e.IsFinite ↔ e.isFiniteHere = true ∧ ∀ child ∈ e.children, child.IsFinite :=
  everywhere_iff

/-- The expression with another type of its own. -/
def Expr.withTy : Expr → Ty → Expr
  | .literal value _ => .literal value
  | .var name _ => .var name
  | .this _ => .this
  | .const owner name _ => .const owner name
  | .enumValue id i _ => .enumValue id i
  | .field obj name _ => .field obj name
  | .property obj accessor _ => .property obj accessor
  | .call receiver callee args _ => .call receiver callee args
  | .index array position _ => .index array position
  | .unary op operand _ => .unary op operand
  | .binary left op right _ => .binary left op right
  | .select cond onTrue onFalse _ => .select cond onTrue onFalse
  | .interpolated parts suffix _ => .interpolated parts suffix
  | .resource name _ => .resource name

@[simp] theorem Expr.withTy_ty (e : Expr) : e.withTy e.ty = e := by
  cases e <;> rfl

@[simp] theorem Expr.ty_withTy (e : Expr) (ty : Ty) : (e.withTy ty).ty = ty := by
  cases e <;> rfl

/-- The form of what the expression is, without its type. -/
def Expr.kindForm (e : Expr) : Json :=
  match e.toJson ofFloat with
  | .object ((_, kind) :: _) => kind
  | _ => .null

theorem Expr.toJson_eq (e : Expr) : e.toJson ofFloat = exprForm e.kindForm e.ty := by
  cases e <;> rfl

theorem Expr.toJson_ne_null (e : Expr) : e.toJson ofFloat ≠ .null := by
  rw [e.toJson_eq]
  exact nofun

theorem Expr.kindForm_withTy (e : Expr) (ty : Ty) : (e.withTy ty).kindForm = e.kindForm := by
  cases e <;> rfl

theorem receiverForm_eq (floatForm : Binary64 → Json) (receiver : Option Expr) :
    receiverForm floatForm receiver = ofOption (Expr.toJson floatForm) receiver := by
  cases receiver <;> rfl

theorem argForms_eq (floatForm : Binary64 → Json) (args : List Expr) :
    argForms floatForm args = args.map (Expr.toJson floatForm) := by
  induction args with
  | nil => rfl
  | cons e rest ih => rw [argForms, ih, List.map_cons]

/-- The form of a part of an interpolated string. -/
def Part.toJson (floatForm : Binary64 → Json) : Part → Json
  | .mk hole arg =>
    .record [("prefix", ofString hole.before), ("arg", arg.toJson floatForm),
      ("width", ofOption (fun n => .ofInt n.toInt) hole.width),
      ("format", ofOption (fun c => ofString (String.singleton c)) hole.format),
      ("precision", ofOption (fun n => .ofNat n.toNat) hole.precision)]

theorem partForms_eq (floatForm : Binary64 → Json) (parts : List Part) :
    partForms floatForm parts = parts.map (Part.toJson floatForm) := by
  induction parts with
  | nil => rfl
  | cons part rest ih =>
      cases part
      rw [partForms, ih, List.map_cons, Part.toJson]

theorem Expr.isFinite_withTy (e : Expr) (ty : Ty) : (e.withTy ty).IsFinite ↔ e.IsFinite := by
  cases e <;> rfl

section

variable {expr : Decoder Expr}

theorem part_codec (h : Codec (limit - 1) (slack - 1) Expr.IsFinite id expr (Expr.toJson ofFloat)) :
    Codec limit slack (fun part => part.arg.IsFinite) id (partDecoder expr)
      (Part.toJson ofFloat) := by
  refine .structured (fun part => (part.hole.before, part.arg, part.hole.width, part.hole.format,
      part.hole.precision, ()))
    (fun p => .mk ⟨p.1, p.2.2.1, p.2.2.2.1, p.2.2.2.2.1⟩ p.2.1)
    (.cons (.optional text_codec "" trivial (Nat.zero_le _)) <| .cons (.required h) <|
      .cons (.optional (int32_codec.nullable nofun) none nofun (Nat.zero_le _)) <|
        .cons (.optional (char_codec.nullable nofun) none nofun (Nat.zero_le _)) <|
          .cons (.optional (uint32_codec.nullable nofun) none nofun (Nat.zero_le _)) .nil)
    (by decide) (fun _ => rfl) ?_ ?_ fun _ h => ⟨h.2.1, rfl⟩
  · rintro b (_ | ⟨_, _ | ⟨_, _ | ⟨_, _ | ⟨_, _ | ⟨_, _ | _⟩⟩⟩⟩⟩) <;> simp
  · rintro ⟨hole, arg⟩ harg
    simpa [Part.hole, Part.arg] using harg

/-- A form without its type that an expression with finite literals has. -/
def FiniteForm (form : Ty → Expr) : Prop := ∃ e : Expr, e.IsFinite ∧ e.withTy = form

theorem finiteForm_withTy {e : Expr} (hhere : e.isFiniteHere = true)
    (h : ∀ child ∈ e.children, child.IsFinite) : FiniteForm e.withTy :=
  ⟨e, Expr.isFinite_iff.mpr ⟨hhere, h⟩, rfl⟩

theorem finiteForm_codec (h : Codec (limit - 1) 0 Expr.IsFinite id expr (Expr.toJson ofFloat)) :
    Codec limit slack FiniteForm id (exprFormDecoder expr) fun form => (form .void).kindForm := by
  have inside : ∀ {limit' slack'}, limit' ≤ limit - 1 →
      Codec limit' slack' Expr.IsFinite id expr (Expr.toJson ofFloat) := fun hlimit =>
    h.mono hlimit (Nat.zero_le _)
  refine .choice fun holds => ?_
  have hliteral := holds "literal" Expr.literal rfl (literal_codec.map _) fun value h =>
    ⟨finiteForm_withTy (e := .literal value .void) h (List.forall_mem_nil _), rfl⟩
  have hvar := holds "var" Expr.var rfl (text_codec.map _) fun name _ =>
    ⟨finiteForm_withTy (e := .var name .void) rfl (List.forall_mem_nil _), rfl⟩
  have hconst := holds "const" (fun given => .const given.1 given.2.1) rfl
    (.record _ (.cons (.required classId_codec) <| .cons (.required text_codec) .nil) (by decide)
      (fun _ => rfl) (by rintro b (_ | ⟨_, _ | ⟨_, _ | _⟩⟩) <;> simp))
    (by
      rintro ⟨owner, name, _⟩ _
      exact ⟨finiteForm_withTy (e := .const owner name .void) rfl (List.forall_mem_nil _), rfl⟩)
  have henum := holds "enum_value" (fun given => .enumValue given.1 given.2.1) rfl
    (.record _ (.cons (.required enumId_codec) <| .cons (.required uint64_codec) .nil) (by decide)
      (fun _ => rfl) (by rintro b (_ | ⟨_, _ | ⟨_, _ | _⟩⟩) <;> simp))
    (by
      rintro ⟨id, i, _⟩ _
      exact ⟨finiteForm_withTy (e := .enumValue id i .void) rfl (List.forall_mem_nil _), rfl⟩)
  have hfield := holds "field" (fun given => .field given.1 given.2.1) rfl
    (.record _ (.cons (.required (inside (by omega))) <| .cons (.required text_codec) .nil)
      (by decide) (fun _ => rfl) (by rintro b (_ | ⟨_, _ | ⟨_, _ | _⟩⟩) <;> simp))
    (by
      rintro ⟨obj, name, _⟩ h
      exact ⟨finiteForm_withTy (e := .field obj name .void) rfl
        (by simpa [Expr.children] using h.1), rfl⟩)
  have hproperty := holds "property" (fun given => .property given.1 given.2.1) rfl
    (.record _ (.cons (.required (inside (by omega))) <| .cons (.required property_codec) .nil)
      (by decide) (fun _ => rfl) (by rintro b (_ | ⟨_, _ | ⟨_, _ | _⟩⟩) <;> simp))
    (by
      rintro ⟨obj, accessor, _⟩ h
      exact ⟨finiteForm_withTy (e := .property obj accessor .void) rfl
        (by simpa [Expr.children] using h.1), rfl⟩)
  -- An absent argument list is written as an empty one, which nests deeper than nothing; a callee
  -- nests as deep, and is always there.
  have hcall := holds "call" (fun given => .call given.1 given.2.1 given.2.2.1) rfl
    (.tighten (.record _
      (.cons (.optional ((inside (by omega)).nullable Expr.toJson_ne_null) none (by simp)
        (Nat.zero_le _)) <|
        .cons (.required callee_codec) <|
          .cons (.optional (.list (inside (by omega))) [] (by simp)
            (by simp [ofList, Json.depth, Json.itemsDepth])) .nil)
      (by decide) (fun _ => rfl)
      (by rintro b (_ | ⟨_, _ | ⟨_, _ | ⟨_, _ | _⟩⟩⟩) <;> simp))
      (by rintro (_ | ⟨_, _ | ⟨_, _ | ⟨_, _ | _⟩⟩⟩) <;>
        simp [Decoder.required, calleeDecoder_zero]))
    (by
      rintro ⟨receiver, callee, args, _⟩ h
      exact ⟨finiteForm_withTy (e := .call receiver callee args .void) rfl
        (by simpa [Expr.children, or_imp, forall_and] using ⟨h.1, h.2.2.1⟩),
        by simp only [Expr.kindForm, Expr.toJson, receiverForm_eq, argForms_eq]; rfl⟩)
  have hindex := holds "index" (fun given => .index given.1 given.2.1) rfl
    (.record _ (.cons (.required (inside (by omega))) <| .cons (.required (inside (by omega))) .nil)
      (by decide) (fun _ => rfl) (by rintro b (_ | ⟨_, _ | ⟨_, _ | _⟩⟩) <;> simp))
    (by
      rintro ⟨array, position, _⟩ h
      exact ⟨finiteForm_withTy (e := .index array position .void) rfl
        (by simpa [Expr.children] using h), rfl⟩)
  have hunary := holds "unary" (fun given => .unary given.1 given.2.1) rfl
    (.record _ (.cons (.required unaryOp_codec) <| .cons (.required (inside (by omega))) .nil)
      (by decide) (fun _ => rfl) (by rintro b (_ | ⟨_, _ | ⟨_, _ | _⟩⟩) <;> simp))
    (by
      rintro ⟨op, operand, _⟩ h
      exact ⟨finiteForm_withTy (e := .unary op operand .void) rfl
        (by simpa [Expr.children] using h), rfl⟩)
  have hbinary := holds "binary" (fun given => .binary given.1 given.2.1 given.2.2.1) rfl
    (.record _ (.cons (.required (inside (by omega))) <| .cons (.required binaryOp_codec) <|
      .cons (.required (inside (by omega))) .nil)
      (by decide) (fun _ => rfl) (by rintro b (_ | ⟨_, _ | ⟨_, _ | ⟨_, _ | _⟩⟩⟩) <;> simp))
    (by
      rintro ⟨left, op, right, _⟩ h
      exact ⟨finiteForm_withTy (e := .binary left op right .void) rfl
        (by simpa [Expr.children] using h), rfl⟩)
  have hselect := holds "select" (fun given => .select given.1 given.2.1 given.2.2.1) rfl
    (.record _ (.cons (.required (inside (by omega))) <| .cons (.required (inside (by omega))) <|
      .cons (.required (inside (by omega))) .nil)
      (by decide) (fun _ => rfl) (by rintro b (_ | ⟨_, _ | ⟨_, _ | ⟨_, _ | _⟩⟩⟩) <;> simp))
    (by
      rintro ⟨cond, onTrue, onFalse, _⟩ h
      exact ⟨finiteForm_withTy (e := .select cond onTrue onFalse .void) rfl
        (by simpa [Expr.children] using h), rfl⟩)
  have hinterpolated := holds "interpolated"
    (fun given => .interpolated given.1 given.2.1) rfl
    (.record _ (.cons (.required (.list (part_codec (inside (by omega))))) <|
      .cons (.optional text_codec "" trivial (Nat.zero_le _)) .nil)
      (by decide) (fun _ => rfl) (by rintro b (_ | ⟨_, _ | ⟨_, _ | _⟩⟩) <;> simp))
    (by
      rintro ⟨parts, suffix, _⟩ h
      exact ⟨finiteForm_withTy (e := .interpolated parts suffix .void) rfl
        (by simpa [Expr.children] using h),
        by simp only [Expr.kindForm, Expr.toJson, partForms_eq]; rfl⟩)
  have hresource := holds "resource" Expr.resource rfl (text_codec.map _) fun name _ =>
    ⟨finiteForm_withTy (e := .resource name .void) rfl (List.forall_mem_nil _), rfl⟩
  refine ⟨?_, fun name c hc => ?_⟩
  · rintro _ ⟨e, he, rfl⟩
    have hchildren := (Expr.isFinite_iff.mp he).2
    cases e with
    | literal value ty => exact hliteral.chosen value he
    | var name ty => exact hvar.chosen name trivial
    | this ty => exact .bare _ rfl rfl
    | const owner name ty => exact hconst.chosen (owner, name, ()) (by simp)
    | enumValue id i ty => exact henum.chosen (id, i, ()) (by simp)
    | field obj name ty =>
        exact hfield.chosen (obj, name, ()) (by simpa [Expr.children] using hchildren)
    | property obj accessor ty =>
        exact hproperty.chosen (obj, accessor, ()) (by simpa [Expr.children] using hchildren)
    | call receiver callee args ty =>
        exact hcall.chosen (receiver, callee, args, ())
          (by simpa [Expr.children, or_imp, forall_and] using hchildren)
    | index array position ty =>
        exact hindex.chosen (array, position, ()) (by simpa [Expr.children] using hchildren)
    | unary op operand ty =>
        exact hunary.chosen (op, operand, ()) (by simpa [Expr.children] using hchildren)
    | binary left op right ty =>
        exact hbinary.chosen (left, op, right, ()) (by simpa [Expr.children] using hchildren)
    | select cond onTrue onFalse ty =>
        exact hselect.chosen (cond, onTrue, onFalse, ()) (by simpa [Expr.children] using hchildren)
    | interpolated parts suffix ty =>
        exact hinterpolated.chosen (parts, suffix, ()) (by simpa [Expr.children] using hchildren)
    | resource name ty => exact hresource.chosen name trivial
  · split at hc <;> cases hc
    · exact hliteral.sound _ rfl
    · exact hvar.sound _ rfl
    · exact .bare _ ⟨.this .void, rfl, rfl⟩ rfl
    · exact hconst.sound _ rfl
    · exact henum.sound _ rfl
    · exact hfield.sound _ rfl
    · exact hproperty.sound _ rfl
    · exact hcall.sound _ rfl
    · exact hindex.sound _ rfl
    · exact hunary.sound _ rfl
    · exact hbinary.sound _ rfl
    · exact hselect.sound _ rfl
    · exact hinterpolated.sound _ rfl
    · exact hresource.sound _ rfl

end

theorem exprDecoder_codec {fuel : ℕ} (hfuel : fuel ≤ nestingLimit + 1) :
    Codec fuel 0 Expr.IsFinite id (exprDecoder fuel) (Expr.toJson ofFloat) := by
  induction fuel with
  | zero => exact .exhausted
  | succ fuel ih =>
    refine .structured (fun e => (e.withTy, e.ty, ())) (fun p => p.1 p.2.1)
      (.cons (.required (finiteForm_codec ((ih (by omega)).mono (Nat.sub_le fuel 1) le_rfl))) <|
        .cons (.required (type_codec (by omega))) .nil) (by decide) (fun _ => rfl)
      (by rintro b (_ | ⟨_, _ | ⟨_, _ | _⟩⟩) <;> simp) (fun e he => ?_) fun p hp => ?_
    · exact ⟨⟨⟨e, he, rfl⟩, trivial, trivial⟩, e.withTy_ty⟩
    · obtain ⟨_, ty, _⟩ := p
      obtain ⟨⟨e, he, rfl⟩, -⟩ := hp
      refine ⟨(e.isFinite_withTy ty).mpr he, ?_⟩
      simp [Expr.toJson_eq, Expr.kindForm_withTy, exprForm]

theorem expression_codec (h : limit ≤ nestingLimit + 1) :
    Codec limit slack Expr.IsFinite id expression (Expr.toJson ofFloat) :=
  (exprDecoder_codec le_rfl).mono h (Nat.zero_le slack)

end Emitter.Program
