import Emitter.Proofs.Statement.Declarations
import Emitter.Proofs.Types.Declarators

/-!
# The types that printed declarations declare

The spelling of a type is its name or a pointer, whatever it is that an array holds. The declaration
of a storage array takes all storage dimensions behind the name. So a reference to an array of
storage arrays is a pointer to a pointer, and no storage array decays to it.
-/

namespace Emitter.CFamily

open Layout Program Reading

/-- The type that the spelling of a type stands for. -/
def spelledType (cx : Context) (d : Dialect) : Ty → CType
  | .void => .named ["void"]
  | .bool => .named ["bool"]
  | .int kind => .named [(d.intType kind).text]
  | .float .float => .named ["float"]
  | .float .double => .named ["double"]
  | .string => .pointer [] (.named [d.readOnly.text, "char"])
  | .null => .named []
  | .enumeration _ => .named ["int"]
  | .classStorage id => .named ((cx.class? id).map ClassDef.name).toList
  | .classRef id => .pointer [] (.named ((cx.class? id).map ClassDef.name).toList)
  | .array element _ _ => .pointer [] (spelledType cx d element)

/-- The type that a declaration declares a name with: storage arrays around what is spelled. -/
def declaredType (cx : Context) (d : Dialect) : Ty → CType
  | .array element true (some length) => .array length.toNat (declaredType cx d element)
  | type => spelledType cx d type

variable {cx : Context} {d : Dialect} {ty : Ty} {code : Code}

@[simp] theorem tokens_pointerTo (type : Code) :
    (pointerTo type).tokens = type.tokens ++ [Token.symbol "*"] := by
  unfold pointerTo
  split <;> simp

@[simp] theorem tokens_beforeName (type : Code) : (beforeName type).tokens = type.tokens := by
  unfold beforeName
  split <;> simp

/-- A star behind the spelling of a type is a pointer to it. -/
theorem declarator_star {left : List Token} {type : CType} (h : Declarator left [] type) :
    Declarator (.symbol "*" :: left) [] (.pointer [] type) :=
  .pointer [] (by simp) h

theorem declarator_typeCode (hc : typeCode cx d ty = .ok code) :
    Declarator code.tokens.reverse [] (spelledType cx d ty) := by
  have hword : ∀ w : String, Declarator [.word w] [] (.named [w]) := fun w =>
    .base [w] (by simp)
  induction ty generalizing code with
  | null => simp [typeCode, Context.unmappedType] at hc
  | void | bool | enumeration =>
      obtain rfl := Except.ok.inj hc
      exact hword _
  | int kind =>
      obtain rfl := Except.ok.inj hc
      cases d <;> cases kind <;> exact hword _
  | float kind => cases kind <;> obtain rfl := Except.ok.inj hc <;> exact hword _
  | string =>
      obtain rfl := Except.ok.inj hc
      have hchar : ∀ w : String, Declarator [.word "char", .word w] [] (.named [w, "char"]) :=
        fun w => .base ["char", w] (by simp)
      cases d <;> exact declarator_star (hchar _)
  | classStorage id =>
      obtain ⟨c, hclass, hc⟩ := Result.bind_eq_ok.mp hc
      obtain rfl := Except.ok.inj hc
      rw [spelledType, Context.classOf_eq_ok hclass]
      exact hword _
  | classRef id =>
      obtain ⟨c, hclass, hc⟩ := Result.bind_eq_ok.mp hc
      obtain rfl := Except.ok.inj hc
      rw [spelledType, Context.classOf_eq_ok hclass]
      exact declarator_star (hword _)
  | array element storage length ih =>
      obtain ⟨inner, hinner, hc⟩ := Result.bind_eq_ok.mp hc
      obtain rfl := Except.ok.inj hc
      simpa [spelledType] using declarator_star (ih hinner)

/-- The lengths behind a name, the outermost first, are arrays around what is in front of it. -/
theorem declarator_declaration {lengths : List UInt32} {base : Ty} {left : List Token}
    (hdims : dimensions cx ty = .ok (lengths, base))
    (hbase : Declarator left [] (spelledType cx d base)) :
    Declarator left (Code.tokens (lengths.flatMap fun n =>
      [.symbol "[", .number (toString n.toNat), .symbol "]"])) (declaredType cx d ty) := by
  fun_induction dimensions cx ty generalizing lengths with
  | case1 element length ih =>
      obtain ⟨⟨inner, _⟩, hinner, hdims⟩ := Result.bind_eq_ok.mp hdims
      obtain ⟨rfl, rfl⟩ := Prod.mk.inj (Except.ok.inj hdims)
      exact .array length.toNat (ih hinner)
  | case2 element => simp [Context.unsupported] at hdims
  | case3 ty howned hdynamic =>
      obtain ⟨rfl, rfl⟩ := Prod.mk.inj (Except.ok.inj hdims)
      rw [declaredType.eq_2 _ _ _ howned]
      exact hbase

/-- The text of a declaration declares its name. -/
theorem declaresAs_declaration (hnamed : cx.program.Named cx.target) {name : String}
    (hname : isWord name = true) (hc : declaration cx d ty (.word name) = .ok code) :
    code.DeclaresAs name (declaredType cx d ty) := by
  have hcut := isCut_declaration hnamed hname hc
  obtain ⟨⟨lengths, base⟩, hdims, hc⟩ := Result.bind_eq_ok.mp hc
  obtain ⟨type, htype, hc⟩ := Result.bind_eq_ok.mp hc
  obtain rfl := Except.ok.inj hc
  have hdeclares :
      Declares (Code.tokens (beforeName type ++ Lexeme.word name :: lengths.flatMap fun n =>
      [Lexeme.symbol "[", Lexeme.number (toString n.toNat), Lexeme.symbol "]"])) name
        (declaredType cx d ty) :=
    ⟨type.tokens.reverse, _, by simp, declarator_declaration hdims (declarator_typeCode htype)⟩
  exact ⟨_, Code.scan_text hcut.spelled hcut.apart, fun type' =>
    ⟨fun h => h.unique hdeclares, fun h => h ▸ hdeclares⟩⟩

/-- The spelling of a type reads as that type. -/
theorem spellsAs_typeCode (hnamed : cx.program.Named cx.target) (hc : typeCode cx d ty = .ok code) :
    code.SpellsAs (spelledType cx d ty) := by
  have hcut := isCut_typeCode hnamed hc
  have hdeclarator := declarator_typeCode hc
  exact ⟨_, Code.scan_text hcut.spelled hcut.apart, fun type' =>
    ⟨fun h => h.unique hdeclarator, fun h => h ▸ hdeclarator⟩⟩

/-- The elements of a declared storage array are declared as they are spelled, unless each is a
storage array itself. -/
theorem declaredType_eq_spelledType_iff {element : Ty} {lengths : List UInt32} {base : Ty}
    (hdims : dimensions cx element = .ok (lengths, base)) :
    declaredType cx d element = spelledType cx d element ↔
      ∀ e length, element ≠ .array e true length := by
  fun_cases dimensions cx element with
  | case1 inner length => simp [declaredType, spelledType]
  | case2 inner => simp [dimensions, Context.unsupported] at hdims
  | case3 element howned hdynamic =>
      rw [declaredType.eq_2 _ _ _ howned]
      refine iff_of_true rfl fun e length heq => ?_
      cases length with
      | none => exact hdynamic e heq
      | some length => exact howned e length heq

/-- What declares a storage array has an element type with a spelling. -/
theorem exists_typeCode_of_declaration {lengths : List UInt32} {base : Ty} {type : Code}
    (hdims : dimensions cx ty = .ok (lengths, base)) (htype : typeCode cx d base = .ok type) :
    ∃ code, typeCode cx d ty = .ok code := by
  fun_induction dimensions cx ty generalizing lengths with
  | case1 element length ih =>
      obtain ⟨⟨inner, _⟩, hinner, hdims⟩ := Result.bind_eq_ok.mp hdims
      obtain ⟨-, rfl⟩ := Prod.mk.inj (Except.ok.inj hdims)
      obtain ⟨code, hcode⟩ := ih hinner
      exact ⟨_, Result.bind_eq_ok.mpr ⟨code, hcode, rfl⟩⟩
  | case2 element => simp [Context.unsupported] at hdims
  | case3 ty howned hdynamic =>
      obtain ⟨-, rfl⟩ := Prod.mk.inj (Except.ok.inj hdims)
      exact ⟨type, htype⟩

/-- **Storage arrays as references.** Where the declaration of a storage array is printed, so are
the declaration and the spelling of every reference to an array of the same elements. The array is
declared with its length. It decays to the type of the reference exactly if its elements are no
storage arrays themselves. -/
theorem decayed_eq_reference_iff (hnamed : cx.program.Named cx.target) {name name' : String}
    (hname : isWord name = true) (hname' : isWord name' = true) {element : Ty} {n : UInt32}
    (hc : declaration cx d (.array element true (some n)) (.word name) = .ok code)
    (length : Option UInt32) :
    ∃ owned referred reference type, code.DeclaresAs name (.array n.toNat owned) ∧
      declaration cx d (.array element false length) (.word name') = .ok reference ∧
      reference.DeclaresAs name' referred ∧
      typeCode cx d (.array element false length) = .ok type ∧ type.SpellsAs referred ∧
      ((CType.array n.toNat owned).decayed = referred ↔ ∀ e l, element ≠ .array e true l) := by
  have howned := declaresAs_declaration hnamed hname hc
  obtain ⟨⟨lengths, base⟩, hdims, hc⟩ := Result.bind_eq_ok.mp hc
  obtain ⟨front, hfront, -⟩ := Result.bind_eq_ok.mp hc
  obtain ⟨⟨inner, _⟩, hinner, hdims⟩ := Result.bind_eq_ok.mp hdims
  obtain ⟨-, rfl⟩ := Prod.mk.inj (Except.ok.inj hdims)
  obtain ⟨spelling, hspelling⟩ := exists_typeCode_of_declaration hinner hfront
  have htype : typeCode cx d (.array element false length) = .ok (pointerTo spelling) :=
    Result.bind_eq_ok.mpr ⟨spelling, hspelling, rfl⟩
  have hreference : declaration cx d (.array element false length) (.word name') =
      .ok (beforeName (pointerTo spelling) ++ [Lexeme.word name']) :=
    Result.bind_eq_ok.mpr ⟨([], _), rfl, Result.bind_eq_ok.mpr ⟨_, htype, rfl⟩⟩
  refine ⟨_, _, _, _, howned, hreference, declaresAs_declaration hnamed hname' hreference, htype,
    spellsAs_typeCode hnamed htype, ?_⟩
  rw [← declaredType_eq_spelledType_iff (d := d) hinner]
  simp [CType.decayed, declaredType, spelledType]

/-- Three references to arrays of storage arrays, as a storage array and as a reference. -/
theorem decayed_eq_reference_iff_rows :
    let cx : Context := ⟨.empty, .cFamily .standard, none⟩
    let rows : Ty := .array (.array (.int .int) true (some 4)) false none
    let int : CType := .named ["int"]
    ∃ storage reference type,
      declaration cx .standard (.array rows true (some 3)) (.word "rows") = .ok storage ∧
      declaration cx .standard (.array rows false none) (.word "view") = .ok reference ∧
      typeCode cx .standard (.array rows false none) = .ok type ∧
      storage.text = "int **rows[3]" ∧ reference.text = "int ***view" ∧ type.text = "int ***" ∧
      storage.DeclaresAs "rows" (.array 3 (.pointer [] (.pointer [] int))) ∧
      reference.DeclaresAs "view" (.pointer [] (.pointer [] (.pointer [] int))) ∧
      type.SpellsAs (.pointer [] (.pointer [] (.pointer [] int))) := by
  intro cx rows int
  have hnamed : cx.program.Named cx.target :=
    ⟨by simp [cx, Program.empty], by simp [cx, Program.empty]⟩
  have hrows : isWord "rows" = true := by decide
  have hview : isWord "view" = true := by decide
  have hstorage : declaration cx .standard (.array rows true (some 3)) (.word "rows") = .ok _ := rfl
  obtain ⟨owned, referred, reference, type, howned, hreference, hreferred, htype, hspells, hiff⟩ :=
    decayed_eq_reference_iff hnamed hrows hview hstorage none
  obtain rfl := Except.ok.inj hreference
  obtain rfl := Except.ok.inj htype
  have hdeclared : CType.array 3 owned = .array 3 (.pointer [] (.pointer [] int)) :=
    howned.unique (declaresAs_declaration hnamed hrows hstorage)
  have hreferred' : .pointer [] owned = referred := hiff.mpr (by simp [rows])
  obtain rfl := (CType.array.inj hdeclared).2
  subst hreferred'
  exact ⟨_, _, _, hstorage, rfl, rfl, by decide, by decide, by decide, howned, hreferred, hspells⟩

/-- A storage array of storage arrays is a pointer to arrays where it is a value, and a reference to
one is a pointer to a pointer. -/
theorem not_decayed_eq_reference_rows :
    let cx : Context := ⟨.empty, .cFamily .standard, none⟩
    let row : Ty := .array (.int .int) true (some 4)
    let int : CType := .named ["int"]
    (∃ storage, declaration cx .standard (.array row true (some 3)) (.word "rows") = .ok storage ∧
      storage.text = "int rows[3][4]" ∧ storage.DeclaresAs "rows" (.array 3 (.array 4 int))) ∧
    (∃ reference, declaration cx .standard (.array row false none) (.word "rows") = .ok reference ∧
      reference.text = "int **rows" ∧ reference.DeclaresAs "rows" (.pointer [] (.pointer [] int))) ∧
    (∃ type, typeCode cx .standard (.array row false none) = .ok type ∧ type.text = "int **" ∧
      type.SpellsAs (.pointer [] (.pointer [] int))) ∧
    (CType.array 3 (.array 4 int)).decayed ≠ .pointer [] (.pointer [] int) ∧
    ∃ tokens, scan "int (*rows)[4]" = some tokens ∧
      Declares tokens "rows" (CType.array 3 (.array 4 int)).decayed := by
  intro cx row int
  have hnamed : cx.program.Named cx.target :=
    ⟨by simp [cx, Program.empty], by simp [cx, Program.empty]⟩
  have hstorage : declaration cx .standard (.array row true (some 3)) (.word "rows") = .ok _ := rfl
  have hreference : declaration cx .standard (.array row false none) (.word "rows") = .ok _ := rfl
  have htype : typeCode cx .standard (.array row false none) = .ok _ := rfl
  have hpointer : Declarator [.symbol "*", .symbol "(", .word "int"]
      [.symbol ")", .symbol "[", .number (toString 4), .symbol "]"] (.pointer [] (.array 4 int)) :=
    .pointer [] (by simp) (.group (.array 4 (.base ["int"] (by simp))))
  exact ⟨⟨_, hstorage, by decide, declaresAs_declaration hnamed (by decide) hstorage⟩,
    ⟨_, hreference, by decide, declaresAs_declaration hnamed (by decide) hreference⟩,
    ⟨_, htype, by decide, spellsAs_typeCode hnamed htype⟩, by decide, _, by decide, _, _, rfl,
      hpointer⟩

end Emitter.CFamily
