import Emitter.CFamily.File
import Emitter.Proofs.Types.Decay
import Emitter.Proofs.Types.Initializers

/-!
# Constant tables in C

The initializer of a table nests lists as its value does. Its type is one array, whose elements have
the type that their values are spelled with. Where these are arrays themselves, that is a pointer,
and no list initializes it.
-/

namespace Emitter

open Layout Program Reading Text

namespace Program.ConstValue

/-- The value is a list exactly where the type is an array, at every depth. -/
inductive Fits : Ty → ConstValue → Prop
  | scalar {ty : Ty} {value : ConstValue} (hty : ty.isArray = false)
      (hvalue : ∀ items, value ≠ .array items) : Fits ty value
  | table {element : Ty} {storage : Bool} {length : Option UInt32} {items : List ConstValue}
      (h : ∀ item ∈ items, Fits element item) : Fits (.array element storage length) (.array items)

theorem Fits.int (n : Int64) (kind : IntKind) : Fits (.int kind) (.int n) :=
  .scalar rfl (by simp)

mutual

/-- The values in a constant that are no lists, in order. -/
def scalars : ConstValue → List ConstValue
  | .array items => itemScalars items
  | value => [value]

def itemScalars : List ConstValue → List ConstValue
  | [] => []
  | item :: rest => scalars item ++ itemScalars rest

end

end Program.ConstValue

variable {cx : Context} {d : Dialect} {code : Code}

/-! A list between braces initializes an array element by element. Nothing else takes a list, a
pointer in particular. -/

namespace Context

theorem valueTrees_eq_map (cx : Context) (items : List ConstValue) :
    cx.valueTrees items = items.map cx.valueTree := by
  induction items with
  | nil => rfl
  | cons item rest ih => simp [valueTrees, ih]

/-- The tree of a printed value is no list, unless the value is one. -/
theorem valueTree_ne_items {value : ConstValue} (hvalue : ∀ items, value ≠ .array items)
    (hc : cx.constValue value = .ok code) (elements : List Tree) :
    cx.valueTree value ≠ .items elements := by
  have hsigned : ∀ (negative : Bool) (tree : Tree), tree ≠ .items elements →
      Tree.signed negative tree ≠ .items elements := by
    intro negative tree htree
    cases negative with
    | true => simp [Tree.signed]
    | false => simpa [Tree.signed] using htree
  cases value with
  | int n => exact hsigned _ _ (by simp)
  | float x =>
      simp only [valueTree, floatTree]
      split_ifs
      · simp
      · exact hsigned _ _ (by simp)
      · exact hsigned _ _ (by simp)
  | bool b => simp [valueTree, truthTree]
  | str s => simp [valueTree]
  | enumValue id index =>
      obtain ⟨e, he, hc⟩ := Result.bind_eq_ok.mp hc
      have henum := enumOf_eq_ok he
      cases hvalue : e.values[index.toNat]? with
      | none => simp [hvalue, unsupported] at hc
      | some value => cases ht : cx.target <;> simp [valueTree, enumTree, henum, hvalue, ht]
  | array items => exact absurd rfl (hvalue items)

end Context

namespace CFamily

theorem isCut_commaSeparated {pieces : List Code} (h : ∀ piece ∈ pieces, IsCut piece) :
    IsCut (Code.commaSeparated pieces) := by
  have hcomma : IsCut Code.comma :=
    .of_separate (by simpa [Code.comma, Lexeme.Spelled] using (by decide : ",".toList ∈ operators))
      (by simp [Code.comma, Lexeme.isSeparate])
  induction pieces with
  | nil => exact .of_tidy .nil
  | cons piece pieces ih =>
      obtain ⟨hpiece, hpieces⟩ := List.forall_mem_cons.mp h
      cases pieces with
      | nil => simpa [Code.commaSeparated] using hpiece
      | cons next pieces =>
          have hfront := hpiece.append_separate hcomma (by simp [Code.comma, Lexeme.isSeparate])
          have hall := hfront.separate_append (ih hpieces) (by simp [Code.comma, Lexeme.isSeparate])
          simpa [Code.commaSeparated] using hall

theorem isCut_braced {items : Code} (h : IsCut items) :
    IsCut ([Lexeme.symbol "\x7b", Lexeme.gap] ++ items ++ [Lexeme.gap, Lexeme.symbol "\x7d"]) := by
  have hopen : IsCut [.symbol "\x7b", .gap] :=
    .of_separate (by simpa [Lexeme.Spelled] using (by decide : "\x7b".toList ∈ operators))
      (by simp [Lexeme.isSeparate])
  have hclose : IsCut [.gap, .symbol "\x7d"] :=
    .of_separate (by simpa [Lexeme.Spelled] using (by decide : "\x7d".toList ∈ operators))
      (by simp [Lexeme.isSeparate])
  exact (hopen.separate_append h (by simp [Lexeme.isSeparate])).append_separate hclose
    (by simp [Lexeme.isSeparate])

theorem initializes_scalar (hnamed : cx.program.Named cx.target) {value : ConstValue}
    (hvalue : ∀ items, value ≠ .array items) (hc : cx.constValue value = .ok code) :
    IsCut code ∧ Initializes cx.target code.tokens (cx.valueTree value) := by
  have hpiece := cx.piece_scalar true hnamed hvalue hc
  exact ⟨.of_tidy hpiece.toTidy,
    .value ((hpiece.parses rfl).mono (Nat.zero_le 11)) (cx.valueTree_ne_items hvalue hc)⟩

mutual

/-- The printed value of a constant is an initializer. -/
theorem initializes_constValue (hnamed : cx.program.Named cx.target) (ht : cx.target = .cFamily d) :
    ∀ {value : ConstValue} {code : Code}, cx.constValue value = .ok code →
      IsCut code ∧ Initializes cx.target code.tokens (cx.valueTree value)
  | .int _, _, hc | .float _, _, hc | .bool _, _, hc | .str _, _, hc | .enumValue _ _, _, hc =>
    initializes_scalar hnamed nofun hc
  | .array items, code, hc => by
    obtain ⟨codes, hcodes, hc⟩ := Result.bind_eq_ok.mp hc
    obtain ⟨pieces, hfst, hsnd, hpieces⟩ := initializes_constItems hnamed ht hcodes
    obtain rfl := Except.ok.inj hc
    subst hfst
    have hcut : ∀ code ∈ pieces.map Prod.fst, IsCut code :=
      List.forall_mem_map.mpr fun p hp => (hpieces p hp).1
    have hinitial : ∀ p ∈ pieces.map fun p => (p.1.tokens, p.2), Initializes cx.target p.1 p.2 :=
      List.forall_mem_map.mpr fun p hp => (hpieces p hp).2
    have hlist := Initializes.list hinitial
    have htable : ∀ items, cx.table items =
        [Lexeme.symbol "\x7b", Lexeme.gap] ++ items ++
          [Lexeme.gap, Lexeme.symbol "\x7d"] := fun items => by
      rw [Context.table, ht]
    rw [htable, Context.valueTree, ← hsnd]
    exact ⟨isCut_braced (isCut_commaSeparated hcut), by simpa [Function.comp_def] using hlist⟩

theorem initializes_constItems (hnamed : cx.program.Named cx.target) (ht : cx.target = .cFamily d) :
    ∀ {items : List ConstValue} {codes : List Code}, cx.constItems items = .ok codes →
      ∃ pieces : List (Code × Tree), pieces.map Prod.fst = codes ∧
        pieces.map Prod.snd = cx.valueTrees items ∧
        ∀ p ∈ pieces, IsCut p.1 ∧ Initializes cx.target p.1.tokens p.2
  | [], codes, hc => by
    obtain rfl := Except.ok.inj hc
    exact ⟨[], rfl, rfl, by simp⟩
  | item :: rest, codes, hc => by
    obtain ⟨first, hfirst, hc⟩ := Result.bind_eq_ok.mp hc
    obtain ⟨others, hothers, hc⟩ := Result.bind_eq_ok.mp hc
    obtain rfl := Except.ok.inj hc
    obtain ⟨pieces, rfl, hsnd, hpieces⟩ := initializes_constItems hnamed ht hothers
    exact ⟨(first, cx.valueTree item) :: pieces, rfl, by simp [Context.valueTrees, hsnd],
      List.forall_mem_cons.mpr ⟨initializes_constValue hnamed ht hfirst, hpieces⟩⟩

end

/-- What stands in front of the name of a table with elements of the given type. -/
def tableFront (d : Dialect) (type : Code) : Code :=
  d.tableStorage ++
    if type.endsInStar then type ++ [d.readOnly, .gap] else d.readOnly :: .gap :: type ++ [.gap]

/-- What stands behind the name of a table. -/
def tableLength (length : Nat) : Code := [.symbol "[", .number (toString length), .symbol "]"]

@[simp] theorem tokens_tableLength (length : Nat) : (tableLength length).tokens =
    [.symbol "[", .number (toString length), .symbol "]"] := rfl

theorem constTable_eq_ok {c : ClassDef} {k : ConstDef} (hc : constTable cx d c k = .ok code) :
    ∃ element storage length items type value, k.ty = .array element storage length ∧
      k.value = .array items ∧ typeCode cx d element = .ok type ∧
        cx.constValue k.value = .ok value ∧
      code = tableFront d type ++ .word (constName c k.emittedName) :: tableLength items.length ++
        Code.operator "=" ++ value ++ [Lexeme.symbol ";"] := by
  unfold constTable at hc
  split at hc
  case h_1 element storage length items hty hvalue =>
    obtain ⟨type, htype, hc⟩ := Result.bind_eq_ok.mp hc
    obtain ⟨value, hprinted, hc⟩ := Result.bind_eq_ok.mp hc
    obtain rfl := Except.ok.inj hc
    exact ⟨element, storage, length, items, type, value, hty, hvalue, htype, hprinted,
      by simp [tableFront, tableLength]⟩
  case h_2 => simp [Context.unsupported] at hc

theorem spelledType_ne_array (cx : Context) (d : Dialect) (ty : Ty) (length : Nat)
    (element : CType) :
    spelledType cx d ty ≠ .array length element := by
  cases ty with
  | float kind => cases kind <;> simp [spelledType]
  | _ => simp [spelledType]

theorem qualified_ne_array {type : CType} (h : ∀ n e, type ≠ .array n e) (words : List String)
    (n : Nat) (e : CType) : type.qualified words ≠ .array n e := by
  cases type with
  | array length element => exact absurd rfl (h length element)
  | _ => simp [CType.qualified]

theorem exists_declarator_tableFront (hnamed : cx.program.Named cx.target) {ty : Ty} {type : Code}
    (hc : typeCode cx d ty = .ok type) :
    ∃ element, (∀ n e, element ≠ .array n e) ∧
      Declarator (tableFront d type).tokens.reverse [] element := by
  obtain ⟨words, hwords⟩ : ∃ words : List String, d.tableStorage.tokens = words.map .word := by
    cases d with
    | standard => exact ⟨["static"], rfl⟩
    | openCL => exact ⟨[], rfl⟩
  have hreadOnly : ∀ code : Code,
      Code.tokens (d.readOnly :: code) = .word d.readOnly.text :: code.tokens := fun code => by
    cases d <;> rfl
  have hspelled := declarator_typeCode hc
  unfold tableFront
  split
  case isTrue hstar =>
    have hlast := (spelling_typeCode hnamed hc).getLast?_of_endsInStar hstar
    obtain ⟨before, rfl⟩ := List.getLast?_eq_some_iff.mp hlast
    have hbehind : ∀ t ∈ ([] : List Token).head?, t = .symbol ")" := by simp
    obtain ⟨target, -, htarget⟩ :=
      Declarator.of_star [] hbehind (by simpa using hspelled)
    have hpointer := (htarget.qualified words).pointer [d.readOnly.text] hbehind
    exact ⟨.pointer [d.readOnly.text] (target.qualified words), by simp,
      by simpa [hwords, hreadOnly] using hpointer⟩
  case isFalse =>
    have hqualified := hspelled.qualified (words ++ [d.readOnly.text])
    exact ⟨_, qualified_ne_array (spelledType_ne_array cx d ty) _,
      by simpa [hwords, hreadOnly] using hqualified⟩

theorem isCut_tableFront (hnamed : cx.program.Named cx.target) {ty : Ty} {type : Code}
    (hc : typeCode cx d ty = .ok type) {rest : Code} (hrest : IsCut rest) :
    IsCut (tableFront d type ++ rest) := by
  obtain ⟨w, hw, hreadOnly⟩ : ∃ w, isWord w = true ∧ d.readOnly = .word w := by
    cases d with
    | standard => exact ⟨"const", by decide, rfl⟩
    | openCL => exact ⟨"constant", by decide, rfl⟩
  have hstorage : ∀ {code : Code}, IsCut code → IsCut (d.tableStorage ++ code) := by
    intro code hcode
    cases d with
    | standard =>
        have hstatic : IsCut [.word "static"] := isCut_names (.inl rfl) (w := "static") (by decide)
        exact (hstatic.append_separate isCut_gap (by simp [Lexeme.isSeparate])).separate_append
          hcode
          (by simp [Lexeme.isSeparate])
    | openCL => exact hcode
  have hspaced : ∀ {code : Code}, IsCut code → IsCut (code ++ .gap :: rest) := fun hcode => by
    have hgap := hcode.append_separate isCut_gap (by simp [Lexeme.isSeparate])
    simpa using hgap.separate_append hrest (by simp [Lexeme.isSeparate])
  unfold tableFront
  split
  case isTrue hstar =>
    have hqualified := isCut_beforeName hnamed hc hw
    rw [beforeName, if_pos hstar] at hqualified
    simpa [hreadOnly] using hstorage (hspaced hqualified)
  case isFalse =>
    have hqualifier : IsCut [.word w] := isCut_names (.inl rfl) hw
    have hgap := hqualifier.append_separate isCut_gap (by simp [Lexeme.isSeparate])
    have htype := hgap.separate_append (isCut_typeCode hnamed hc) (by simp [Lexeme.isSeparate])
    simpa [hreadOnly] using hstorage (hspaced htype)

theorem isCut_tableLength (length : Nat) : IsCut (tableLength length) := by
  have hsymbols : ∀ s ∈ ["[", "]"], (Lexeme.symbol s).Spelled :=
    (by decide : ∀ s ∈ ["[", "]"], s.toList ∈ operators)
  have hnumber : (Lexeme.number (toString length)).Spelled := (isNumeral_toString length).number
  exact .of_separate (by simp [tableLength, -Nat.toString_eq_repr, hsymbols, hnumber])
    (by simp [tableLength, Lexeme.isSeparate])

/-- A table is an array of what stands in front of its name, and starts with its value. -/
theorem definesAs_table (hnamed : cx.program.Named cx.target) (ht : cx.target = .cFamily d)
    {name : String} (hname : isWord name = true) {element : Ty} {items : List ConstValue}
    {type value : Code} (htype : typeCode cx d element = .ok type)
    (hvalue : cx.constValue (.array items) = .ok value) {owned : CType}
    (hdeclarator : Declarator (tableFront d type).tokens.reverse [] owned) :
    Code.DefinesAs cx.target (tableFront d type ++ .word name :: tableLength items.length ++
      Code.operator "=" ++ value ++ [Lexeme.symbol ";"]) name (.array items.length owned)
      (cx.valueTree (.array items)) := by
  obtain ⟨hcut, hinitializes⟩ := initializes_constValue hnamed ht hvalue
  have hend : IsCut [.symbol ";"] :=
    .of_separate (by simpa [Lexeme.Spelled] using (by decide : ";".toList ∈ operators))
      (.singleton _)
  have hnamedLength : IsCut (.word name :: tableLength items.length) :=
    (isCut_names (.inl rfl) hname).append_separate (isCut_tableLength _)
      (by simp [Lexeme.isSeparate])
  have hstarted := (isCut_operator (s := "=") (by decide)).separate_append
    (hcut.append_separate hend (by simp [Lexeme.isSeparate]))
      (by simp [Code.operator, Lexeme.isSeparate])
  have hrest := hnamedLength.append_separate hstarted (by simp [Code.operator, Lexeme.isSeparate])
  have hall : IsCut (tableFront d type ++ .word name :: tableLength items.length ++
      Code.operator "=" ++ value ++ [Lexeme.symbol ";"]) := by
    simpa using isCut_tableFront hnamed htype hrest
  have hdefines : Defines cx.target (Code.tokens (tableFront d type ++ .word name ::
      tableLength items.length ++ Code.operator "=" ++ value ++ [Lexeme.symbol ";"])) name
      (.array items.length owned) (cx.valueTree (.array items)) := by
    refine ⟨(tableFront d type).tokens ++ .word name :: (tableLength items.length).tokens,
      value.tokens, ?_, ⟨(tableFront d type).tokens.reverse, _, by simp, hdeclarator.array _⟩,
      hinitializes⟩
    simp [Code.operator]
  refine ⟨_, Code.scan_text hall.spelled hall.apart, fun type' tree' =>
    ⟨fun h => h.unique hdefines, ?_⟩⟩
  rintro ⟨rfl, rfl⟩
  exact hdefines

theorem initialized_of_ne_array {type : CType} (h : ∀ n e, type ≠ .array n e) :
    (∀ elements, type.initialized (.items elements) = none) ∧
      ∀ tree, (∀ elements, tree ≠ .items elements) → type.initialized tree = some [tree] := by
  cases type with
  | array length element => exact absurd rfl (h length element)
  | named words | pointer qualifiers target =>
      refine ⟨fun elements => rfl, fun tree htree => ?_⟩
      cases tree with
      | items elements => exact absurd rfl (htree elements)
      | _ => rfl

/-- Scalars initialize a flat table one after the other. -/
theorem mapM_initialized_scalars {element : CType} (helement : ∀ n e, element ≠ .array n e)
    {items : List ConstValue} {codes : List Code} (hc : cx.constItems items = .ok codes)
    (hscalars : ∀ item ∈ items, ∀ inner, item ≠ .array inner) :
    ((items.map cx.valueTree).mapM element.initialized).map List.flatten =
      some ((ConstValue.itemScalars items).map cx.valueTree) := by
  induction items generalizing codes with
  | nil => rfl
  | cons item rest ih =>
      obtain ⟨hitem, hrest⟩ := List.forall_mem_cons.mp hscalars
      obtain ⟨code, hfirst, hc⟩ := Result.bind_eq_ok.mp hc
      obtain ⟨others, hothers, -⟩ := Result.bind_eq_ok.mp hc
      have hvalue := (initialized_of_ne_array helement).2 _ (cx.valueTree_ne_items hitem hfirst)
      obtain ⟨values, hvalues, hflat⟩ := Option.map_eq_some_iff.mp (ih hothers hrest)
      have hself : item.scalars = [item] := by
        cases item with
        | array inner => exact absurd rfl (hitem inner)
        | _ => rfl
      simp [ConstValue.itemScalars, hself, hvalue, hvalues, hflat]

theorem initialized_valueTree {element : CType} (helement : ∀ n e, element ≠ .array n e)
    {items : List ConstValue} {codes : List Code} (hc : cx.constItems items = .ok codes) {ty : Ty}
    (hfits : ∀ item ∈ items, ConstValue.Fits ty item) :
    (CType.array items.length element).initialized (cx.valueTree (.array items)) =
      if ty.isArray ∧ items ≠ [] then none
      else some ((ConstValue.itemScalars items).map cx.valueTree) := by
  have hall : (CType.array items.length element).initialized (cx.valueTree (.array items)) =
      ((items.map cx.valueTree).mapM element.initialized).map List.flatten := by
    simp [Context.valueTree, Context.valueTrees_eq_map, CType.initialized]
  rw [hall]
  split_ifs with hnested
  · obtain ⟨hty, hne⟩ := hnested
    obtain ⟨item, rest, rfl⟩ := List.exists_cons_of_ne_nil hne
    cases hfits item List.mem_cons_self with
    | scalar hscalar hvalue => simp [hscalar] at hty
    | @table _ _ _ inner h =>
        simp [Context.valueTree, (initialized_of_ne_array helement).1]
  · refine mapM_initialized_scalars helement hc fun item hitem => ?_
    cases hfits item hitem with
    | scalar hscalar hvalue => exact hvalue
    | table h => exact absurd ⟨rfl, List.ne_nil_of_mem hitem⟩ hnested

/-- **Initializers of tables.** A printed table whose value nests lists where its type nests arrays
is the definition of an array, started by the value. The array takes the value's scalars in
order if the elements are no arrays or there are none, and does not admit the initializer
otherwise. -/
theorem constTable_initialized (hnamed : cx.program.Named cx.target) (ht : cx.target = .cFamily d)
    {c : ClassDef} (hclass : c ∈ cx.program.classes) {k : ConstDef} (hk : k ∈ c.constArrays)
    (hfits : k.value.Fits k.ty) (hc : constTable cx d c k = .ok code) :
    ∃ element storage length items type, k.ty = .array element storage length ∧
      k.value = .array items ∧
      code.DefinesAs cx.target (constName c k.emittedName) type (cx.valueTree k.value) ∧
      type.initialized (cx.valueTree k.value) =
        if element.isArray ∧ items ≠ [] then none else some (k.value.scalars.map cx.valueTree) := by
  obtain ⟨hclassName, -, hconsts⟩ := hnamed.classes c hclass
  obtain ⟨hupper, -⟩ := isWord_upperSnakeCase (hconsts k (List.mem_append_right _ hk))
  have hname : isWord (constName c k.emittedName) = true :=
    isWord_append (isWord_append hclassName (by decide)) (isWordChar_of_isWord hupper)
  obtain ⟨element, storage, length, items, type, value, hty, hvalue, htype, hprinted, rfl⟩ :=
    constTable_eq_ok hc
  rw [hty, hvalue] at hfits
  rw [hvalue] at hprinted ⊢
  obtain ⟨owned, howned, hdeclarator⟩ := exists_declarator_tableFront hnamed htype
  have hdefines := definesAs_table hnamed ht hname htype hprinted hdeclarator
  obtain ⟨codes, hcodes, -⟩ := Result.bind_eq_ok.mp hprinted
  refine ⟨element, storage, length, items, _, hty, rfl, hdefines, ?_⟩
  cases hfits with
  | scalar hscalar hne => exact absurd rfl (hne items)
  | table hitems => exact initialized_valueTree howned hcodes hitems

/-- A table of three steps takes them, and a table of two rows does not. -/
theorem constTable_initialized_steps :
    let row (a b : Int64) : ConstValue := .array [.int a, .int b]
    let steps : ConstDef := ⟨"steps", .exported, none, .array (.int .short) false none,
      .array [.int 1, .int (-2), .int 3], none⟩
    let rows : ConstDef := ⟨"rows", .exported, none,
      .array (.array (.int .int) true (some 2)) true (some 2), .array [row 1 2, row 3 4], none⟩
    let c : ClassDef := ⟨"G", .exported, none, none, [], [steps, rows]⟩
    let cx : Context := ⟨{ Program.empty with classes := [c] }, .cFamily .standard, none⟩
    (∃ code type, constTable cx .standard c steps = .ok code ∧
      code.text = "static const int16_t G_STEPS[3] = \x7b 1, -2, 3 \x7d;" ∧
      code.DefinesAs cx.target "G_STEPS" type (cx.valueTree steps.value) ∧
      type.initialized (cx.valueTree steps.value) =
        some [.number "1", .prefixed "-" (.number "2"), .number "3"]) ∧
    ∃ code type, constTable cx .standard c rows = .ok code ∧
      code.text = "static int *const G_ROWS[2] = \x7b \x7b 1, 2 \x7d, \x7b 3, 4 \x7d \x7d;" ∧
      code.DefinesAs cx.target "G_ROWS" type (cx.valueTree rows.value) ∧
      type.initialized (cx.valueTree rows.value) = none := by
  intro row steps rows c cx
  have hnamed : cx.program.Named cx.target := ⟨by simp [cx, Program.empty], by
    simp only [cx, c, List.forall_mem_singleton]
    decide⟩
  have hclass : c ∈ cx.program.classes := List.mem_singleton.mpr rfl
  refine ⟨?_, ?_⟩
  · have hfits : steps.value.Fits steps.ty := .table (List.forall_mem_cons.mpr ⟨.int 1 _,
      List.forall_mem_cons.mpr ⟨.int (-2) _, List.forall_mem_singleton.mpr (.int 3 _)⟩⟩)
    have hname : constName c steps.emittedName = "G_STEPS" := by cbv
    have hc : constTable cx .standard c steps = .ok _ := rfl
    obtain ⟨element, storage, length, items, type, hty, hvalue, hdefines, hinitialized⟩ :=
      constTable_initialized hnamed rfl hclass List.mem_cons_self hfits hc
    obtain ⟨rfl, rfl, rfl⟩ := Ty.array.inj hty
    exact ⟨_, type, hc, by decide +kernel, hname ▸ hdefines, hinitialized.trans (by rfl)⟩
  · have hrow : ∀ a b, (row a b).Fits (.array (.int .int) true (some 2)) := fun a b =>
      .table (List.forall_mem_cons.mpr ⟨.int a _, List.forall_mem_singleton.mpr (.int b _)⟩)
    have hfits : rows.value.Fits rows.ty :=
      .table (List.forall_mem_cons.mpr ⟨hrow 1 2, List.forall_mem_singleton.mpr (hrow 3 4)⟩)
    have hname : constName c rows.emittedName = "G_ROWS" := by cbv
    have hc : constTable cx .standard c rows = .ok _ := rfl
    have hmem : rows ∈ c.constArrays := List.mem_cons_of_mem _ (List.mem_singleton.mpr rfl)
    obtain ⟨element, storage, length, items, type, hty, hvalue, hdefines, hinitialized⟩ :=
      constTable_initialized hnamed rfl hclass hmem hfits hc
    obtain ⟨rfl, rfl, rfl⟩ := Ty.array.inj hty
    obtain rfl := ConstValue.array.inj hvalue
    exact ⟨_, type, hc, by decide +kernel, hname ▸ hdefines, hinitialized.trans (by rfl)⟩

/-- A table of two tables is an array of pointers, which no lists initialize. With both lengths
behind its name it is an array of arrays and takes the four numbers. -/
theorem not_initialized_rows :
    let row (a b : Int64) : ConstValue := .array [.int a, .int b]
    let k : ConstDef := ⟨"t", .exported, none,
      .array (.array (.int .int) true (some 2)) true (some 2), .array [row 1 2, row 3 4], none⟩
    let c : ClassDef := ⟨"G", .exported, none, none, [], [k]⟩
    let cx : Context := ⟨{ Program.empty with classes := [c] }, .cFamily .standard, none⟩
    let int : CType := .named ["static", "int"]
    let readOnly : CType := .named ["static", "const", "int"]
    k.value.Fits k.ty ∧
    (∃ code, constTable cx .standard c k = .ok code ∧
      code.text = "static int *const G_T[2] = \x7b \x7b 1, 2 \x7d, \x7b 3, 4 \x7d \x7d;" ∧
      code.DefinesAs cx.target "G_T" (.array 2 (.pointer ["const"] int)) (cx.valueTree k.value)) ∧
    (CType.array 2 (.pointer ["const"] int)).initialized (cx.valueTree k.value) = none ∧
    (∃ tokens, scan "static const int G_T[2][2] = \x7b \x7b 1, 2 \x7d, \x7b 3, 4 \x7d \x7d;" =
      some tokens ∧
        Defines cx.target tokens "G_T" (.array 2 (.array 2 readOnly)) (cx.valueTree k.value)) ∧
    (CType.array 2 (.array 2 readOnly)).initialized (cx.valueTree k.value) =
      some [.number "1", .number "2", .number "3", .number "4"] := by
  intro row k c cx int readOnly
  have hnamed : cx.program.Named cx.target := ⟨by simp [cx, Program.empty], by
    simp only [cx, c, List.forall_mem_singleton]
    decide⟩
  have hrow : ∀ a b, (row a b).Fits (.array (.int .int) true (some 2)) := fun a b =>
    .table (List.forall_mem_cons.mpr ⟨.int a _, List.forall_mem_singleton.mpr (.int b _)⟩)
  have hfits : k.value.Fits k.ty :=
    .table (List.forall_mem_cons.mpr ⟨hrow 1 2, List.forall_mem_singleton.mpr (hrow 3 4)⟩)
  have hname : constName c k.emittedName = "G_T" := by cbv
  have hc : constTable cx .standard c k = .ok _ := rfl
  have hvalue : cx.constValue k.value = .ok _ := rfl
  have hpointer : Declarator [.word "const", .symbol "*", .word "int", .word "static"] []
      (.pointer ["const"] int) :=
    .pointer ["const"] (by simp) (.base ["int", "static"] (by simp))
  have hword : isWord "G_T" = true := by decide
  have htype : typeCode cx .standard (.array (.int .int) true (some 2)) = .ok _ := rfl
  have hdefines := definesAs_table hnamed rfl hword htype hvalue hpointer
  have hrows : Declarator [.word "int", .word "const", .word "static"] [.symbol "[",
      .number (toString 2), .symbol "]", .symbol "[", .number (toString 2), .symbol "]"]
      (.array 2 (.array 2 readOnly)) :=
    .array 2 (.array 2 (.base ["int", "const", "static"] (by simp)))
  obtain ⟨-, hinitializes⟩ := initializes_constValue hnamed (d := .standard) rfl hvalue
  refine ⟨hfits, ⟨_, hc, by decide, ?_⟩, rfl, ⟨_, ?_, _, _, rfl, ⟨_, _, rfl, hrows⟩,
    hinitializes⟩, rfl⟩
  · rw [hname]
    exact hdefines
  · decide

end CFamily

end Emitter
