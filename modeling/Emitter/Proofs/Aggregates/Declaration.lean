import Emitter.Proofs.Aggregates.Statement
import Emitter.Proofs.Types.Resources

/-!
# Declarations with empty aggregates

Enumerations and structures are never printed empty: an enumeration without values is left out, and
a structure without fields gets a member. Nothing of the kind is done for lists: a resource without
bytes and a constant list without items are printed as braces with nothing in between, and every
length is printed as it is.
-/

namespace Emitter

open Layout Program

namespace Program.ConstValue

mutual

/-- A list without items is in the value. -/
def hasEmptyList : ConstValue → Bool
  | .array items => items.isEmpty || haveEmptyList items
  | _ => false

def haveEmptyList : List ConstValue → Bool
  | [] => false
  | item :: rest => item.hasEmptyList || haveEmptyList rest

end

end Program.ConstValue

namespace Aggregates

open CFamily

section Constants

variable {cx : Context} {d : Dialect}

/-- Where the value of a constant may start. -/
def listed : List Place := [.list, .opened, .name]

/-- Where the value of a constant may end. -/
def ended : List Place := [.plain, .word, .name]

theorem IsScalar.crosses {code : Code} (h : IsScalar code) {before : List Place}
    (hbefore : .length ∉ before) : Crosses before ended false code := by
  have hword : ∀ (p : Place) (w : String), (if w ∈ leadingWords then Place.plain else
      if p ∈ [Place.word, .star, .name] then .name else .word) ∈ ended := by
    intro p w
    split_ifs <;> decide
  have hended : [Place.plain] ⊆ ended := by decide
  cases h with
  | word w => exact fun p _ => ⟨_, hword p w, rfl⟩
  | supplied w s => exact fun p _ => ⟨_, hword p w, rfl⟩
  | number text => exact (crosses_number text hbefore).mono (List.Subset.refl _) hended
  | negative text =>
      have hminus : Crosses before [.plain] false [.symbol "-"] := fun p _ => ⟨.plain, by simp, rfl⟩
      exact hminus.behind ((crosses_number text (by decide)).mono (List.Subset.refl _) hended)
  | quoted text => exact (crosses_quoted text _).mono (List.Subset.refl _) hended

/-- A constant that is no list. -/
theorem isScalar_constValue (ht : cx.target = .cFamily d) {value : ConstValue}
    (hvalue : ∀ items, value ≠ .array items) : Yields (cx.constValue value) IsScalar := by
  cases value with
  | int n => exact yields_pure (isScalar_integer _)
  | float x => exact isScalar_float ht x
  | bool b => exact yields_pure (isScalar_truth ht b)
  | str s => exact yields_pure (.quoted s)
  | enumValue id index => exact isScalar_enumValue ht id index
  | array items => exact absurd rfl (hvalue items)

/-- A list between braces. -/
theorem crosses_table (ht : cx.target = .cFamily d) {pieces : List Code} {empties : List Bool}
    (h : List.Forall₂ (Crosses listed ended) empties pieces) :
    Crosses listed ended (pieces.isEmpty || empties.any id)
      (cx.table (Code.commaSeparated pieces)) := by
  have hopen : Crosses listed [.opened] false [.symbol "\x7b", .gap] := by decide
  have hcomma : Crosses ended listed false Code.comma := by decide
  have htable : cx.table (Code.commaSeparated pieces) =
      [Lexeme.symbol "\x7b", .gap] ++ Code.commaSeparated pieces ++
        [Lexeme.gap, .symbol "\x7d"] := by
    rw [Context.table, ht]
  rw [htable]
  cases h with
  | nil =>
      have hempty : Crosses [.opened] ended true [.gap, .symbol "\x7d"] := by decide
      exact hopen.behind hempty
  | cons hpiece hpieces =>
      have hclose : Crosses ended ended false [.gap, .symbol "\x7d"] := by decide
      have hall := Crosses.commaSeparated_cons hcomma hpiece hpieces
      exact (hopen.behind (hall.mono (by decide) (List.Subset.refl _))).followed hclose

mutual

theorem crosses_constValue (ht : cx.target = .cFamily d) : ∀ value : ConstValue,
    Yields (cx.constValue value) (Crosses listed ended value.hasEmptyList)
  | .array items => (crosses_constItems ht items).bind fun pieces hpieces => yields_pure (by
      obtain ⟨empties, hlength, hany, hall⟩ := hpieces
      have htable := crosses_table ht hall
      rwa [hany, hlength] at htable)
  | .int _ | .float _ | .bool _ | .str _ | .enumValue _ _ => fun code hc =>
    (isScalar_constValue ht (by simp) code hc).crosses (by decide)

theorem crosses_constItems (ht : cx.target = .cFamily d) : ∀ items : List ConstValue,
    Yields (cx.constItems items) fun pieces => ∃ empties, pieces.isEmpty = items.isEmpty ∧
      empties.any id = ConstValue.haveEmptyList items ∧
        List.Forall₂ (Crosses listed ended) empties pieces
  | [] => yields_pure ⟨[], rfl, rfl, .nil⟩
  | item :: rest => (crosses_constValue ht item).bind fun first hfirst =>
      (crosses_constItems ht rest).bind fun pieces ⟨empties, _, hany, hall⟩ =>
        yields_pure ⟨item.hasEmptyList :: empties, rfl, by
          rw [List.any_cons, hany, ConstValue.haveEmptyList]; rfl, .cons hfirst hall⟩

end

end Constants

theorem notMem_leadingWords {w : String} (h : '_' ∈ w.toList) : w ∉ leadingWords := by
  intro hmem
  have hnone : ∀ w ∈ leadingWords, '_' ∉ w.toList := by decide
  exact hnone w hmem h

theorem crosses_functionName (owner name : String) :
    Crosses typed [.name] false [.word (functionName owner name)] :=
  (crosses_name _ (.inl rfl) (notMem_leadingWords (by simp [functionName]))).2

theorem crosses_constName (c : ClassDef) (emitted : String) :
    Crosses typed [.name] false [.word (constName c emitted)] :=
  (crosses_name _ (.inl rfl) (notMem_leadingWords (by simp [constName]))).2

section Tables

variable {cx : Context} {d : Dialect} {c : ClassDef} {k : ConstDef}

theorem isPlain_macroLine (ht : cx.target = .cFamily d) :
    Leads [.plain] ended k.value.hasEmptyList (macroLine cx c k) := by
  have hdefine : Crosses [.plain] typed false [.symbol "#", .word "define", .gap] := by decide
  have hgap : Crosses [.name] listed false [.gap] := by decide
  have hfront := (hdefine.behind (crosses_constName c k.emittedName)).behind hgap
  have hnegative : ∀ code, cx.constValue k.value = .ok code → k.value.isBelowZero →
      Crosses listed ended k.value.hasEmptyList code.parenthesized := by
    intro code hcode hbelow
    have hopen : Crosses listed calm false [.symbol "("] := by decide
    have hclose : Crosses done ended false [.symbol ")"] := by decide
    have hscalar : ∀ items, k.value ≠ .array items := by
      intro items hvalue
      simp [hvalue, ConstValue.isBelowZero] at hbelow
    have hnone : k.value.hasEmptyList = false := by
      cases hvalue : k.value with
      | array items => exact absurd hvalue (hscalar items)
      | _ => rfl
    rw [hnone]
    exact hopen.behind ((isScalar_constValue ht hscalar code hcode).quiet.behind hclose)
  refine leads_lift (P := fun code => cx.constValue k.value = .ok code) (fun _ h => h)
    fun code hcode => leads_line (hfront.behind ?_)
  split_ifs with hbelow
  · exact hnegative code hcode hbelow
  · exact crosses_constValue ht k.value code hcode

/-- A table has a length behind its name, which is that of its list. -/
theorem crosses_constTable (ht : cx.target = .cFamily d) (hp : cx.program.HasTypeNames) :
    Yields (constTable cx d c k) (Crosses [.plain] [.plain] k.value.hasEmptyList) := by
  unfold constTable
  split
  case h_2 => exact yields_error _
  case h_1 element storage length items hty hvalue =>
    refine (isType_typeCode hp element).bind fun type htype =>
      (crosses_constValue ht k.value).bind fun value hlist => yields_pure ?_
    have hstorage : Crosses [.plain] [.plain, .word] false d.tableStorage := by
      cases d <;> decide
    have hreadOnly : Crosses [.plain, .word] [.word, .name] false [d.readOnly, .gap] := by
      cases d <;> decide
    have hbehind : Crosses typed [.name] false [d.readOnly, .gap] := by
      cases d <;> decide
    have hgap : Crosses [.word, .name] typed false [.gap] := by decide
    have hqualified : Crosses [.plain, .word] typed false
        (if type.endsInStar then type ++ [d.readOnly, .gap]
          else d.readOnly :: .gap :: type ++ [.gap]) := by
      split_ifs with hstar
      · have hends : Crosses [.plain, .word] typed false type := by
          rcases htype with htype | ⟨-, htype⟩ <;> exact htype.mono (by decide) (by decide)
        exact hends.behind (hbehind.mono (List.Subset.refl _) (by decide))
      · obtain htype | ⟨hends, -⟩ := htype
        · exact (hreadOnly.behind (htype.mono (by decide) (List.Subset.refl _))).behind hgap
        · exact absurd hends hstar
    have hequals : Crosses [.name] listed false (Code.operator "=") := by decide
    have hend : Crosses ended [.plain] false [.symbol ";"] := by decide
    have hname := (hstorage.behind hqualified).behind (crosses_constName c k.emittedName)
    have hall := ((hname.behind (crosses_length items.length)).followed hequals).append
      (hlist.followed hend)
    have hempty : (decide (items.length = 0) || k.value.hasEmptyList) = k.value.hasEmptyList := by
      rw [hvalue, ConstValue.hasEmptyList]
      cases items <;> simp
    rw [hempty] at hall
    simpa using hall

end Tables

section Functions

variable {cx : Context} {d : Dialect} {c : ClassDef} {m : MethodDef} {f : FieldDef}

theorem crosses_linkage (visibility : Visibility) :
    Crosses [.plain] [.plain, .word] false (linkage visibility) := by
  unfold linkage
  split_ifs <;> decide

theorem crosses_selfParameter (hc : c.name ∉ leadingWords) :
    Crosses fresh [.name] false (selfParameter c) := by
  have hself : Crosses [.word, .name] [.name] false [.gap, .symbol "*", .word "self"] := by decide
  exact (crosses_name (.word c.name) (.inl rfl) hc).1.behind hself

theorem isPlain_constructorSignature (hc : c.name ∉ leadingWords) :
    Crosses [.plain] [.plain] false (constructorSignature c) := by
  have hvoid : Crosses [.plain, .word] typed false [.word "void", .gap] := by decide
  have hopen : Crosses [.name] fresh false [.symbol "("] := by decide
  have hclose : Crosses [.name] [.plain] false [.symbol ")"] := by decide
  have hname : Crosses typed [.name] false [.word (constructName c.name)] :=
    crosses_functionName c.name "Construct"
  have hself := hopen.behind ((crosses_selfParameter hc).behind hclose)
  have hall := (crosses_linkage c.visibility).behind (hvoid.behind (hname.behind hself))
  simpa [constructorSignature, Code.parenthesized] using hall

/-- What stands between the parentheses of a function. -/
theorem crosses_parameters (ht : cx.target = .cFamily d) (hp : cx.program.HasTypeNames)
    {params : List Param} {self codes : List Code}
    (hself : ∀ code ∈ self, Crosses fresh [.name] false code)
    (hcodes : params.mapM (fun p => declaration cx d p.ty (cx.localWord p.name)) = .ok codes) :
    Crosses [.plain, .list] [.plain, .list, .name] (params.any (·.ty.hasZeroLength))
      (Code.commaSeparated (self ++ codes)) := by
  have hcomma : Crosses [.name] [.plain, .list] false Code.comma := by decide
  have hfresh : [Place.plain, .list] ⊆ fresh := by decide
  have hselves := Crosses.forall₂_of_forall fun code hcode =>
    (hself code hcode).mono hfresh (List.Subset.refl _)
  have hparams : List.Forall₂ (Crosses [.plain, .list] [.name])
      (params.map (·.ty.hasZeroLength)) codes :=
    List.forall₂_map_left_iff.mpr ((Result.forall₂_of_mapM_eq_ok hcodes).imp fun p code hcode =>
      (crosses_declaration ht hp p.ty p.name code hcode).mono hfresh (List.Subset.refl _))
  have hany : ((self.map fun _ => false) ++ params.map (·.ty.hasZeroLength)).any id =
      params.any (·.ty.hasZeroLength) := by
    simp [List.any_map]
  rw [← hany]
  exact Crosses.commaSeparated hcomma (List.rel_append hselves hparams)

theorem isPlain_signature (ht : cx.target = .cFamily d) (hp : cx.program.HasTypeNames)
    (hc : c.name ∉ leadingWords) : Yields (signature cx d c m)
      (Crosses [.plain] [.plain] (m.params.any (·.ty.hasZeroLength))) := by
  refine (isType_typeCode hp m.returnType).bind fun returned hreturned =>
    yields_bind fun params hparams => yields_pure ?_
  have hfront := ((crosses_linkage m.visibility).behind
    (hreturned.beforeName.mono (by decide) (List.Subset.refl _))).behind
      (crosses_functionName c.name m.name)
  have hopen : Crosses [.name] [.plain, .list] false [.symbol "("] := by decide
  have hclose : Crosses [.plain, .list, .name, .word] [.plain] false [.symbol ")"] := by decide
  have hself : ∀ code ∈ (if m.isStatic then [] else [selfParameter c]),
      Crosses fresh [.name] false code := by
    split_ifs
    · simp
    · simpa using crosses_selfParameter hc
  generalize (if m.isStatic then [] else [selfParameter c]) = self at hself ⊢
  have hlist : Crosses [.plain, .list] [.plain, .list, .name, .word]
      (m.params.any (·.ty.hasZeroLength)) (if (self ++ params).isEmpty then [.word "void"]
        else Code.commaSeparated (self ++ params)) := by
    split_ifs with hnone
    · have hvoid : Crosses [.plain, .list] [.plain, .list, .name, .word] false [.word "void"] := by
        decide
      have hempty : m.params = [] := by
        have hcodes : params = [] := (List.append_eq_nil_iff.mp (List.isEmpty_iff.mp hnone)).2
        exact List.isEmpty_iff.mp ((isEmpty_mapM hparams).symm.trans (by simp [hcodes]))
      rwa [hempty]
    · exact (crosses_parameters ht hp hself hparams).mono (List.Subset.refl _) (by decide)
  simpa [Code.parenthesized] using hfront.behind (hopen.behind (hlist.followed hclose))

theorem isPlain_fieldSetup (ht : cx.target = .cFamily d) :
    IsPlain false (fieldSetup cx c f) := by
  have hplace : Quiet (selfField cx f) := by
    have harrow : Crosses calm calm false [.word "self", .symbol "->"] := by decide
    exact (quiet_word _).after harrow
  have hequals : Crosses done calm false (Code.operator "=") := by decide
  have hcalls : IsPlain false (constructCalls cx 0 (selfField cx f) f.ty) :=
    isPlain_constructCalls 0 hplace f.ty
  unfold fieldSetup
  split
  · exact leads_lift (quiet_code ht _) fun _ hcode =>
      isPlain_line_of_quiet (hplace.infixed hcode hequals)
  · split_ifs
    · exact (leads_note _ _).behind hcalls
    · exact hcalls

theorem isPlain_constructorBody (ht : cx.target = .cFamily d) (hp : cx.program.HasTypeNames)
    (hc : c.name ∉ leadingWords) :
    IsPlain (((c.constructor?.getD []).flatMap Stmt.locals).any (·.ty.hasZeroLength))
      (constructorBody cx c) := by
  have hfields : IsPlain false (c.fields.forM (fieldSetup cx c)) := by
    have hall : IsPlain (c.fields.any fun _ => false) (c.fields.forM (fieldSetup cx c)) :=
      leads_forM fun f _ => isPlain_fieldSetup ht
    rwa [List.any_eq_false.mpr (by simp)] at hall
  have hbody := isPlain_statements fun s (_ : s ∈ c.constructor?.getD []) =>
    isPlain_statement ht hp s
  have hbraced : IsPlain _ (Emit.braced _) := IsPlain.braced (hfields.behind hbody)
  exact (leads_newline _).behind ((leads_line (isPlain_constructorSignature hc)).behind hbraced)

theorem isPlain_methodBody (ht : cx.target = .cFamily d) (hp : cx.program.HasTypeNames)
    (hc : c.name ∉ leadingWords) :
    IsPlain (m.params.any (·.ty.hasZeroLength) ||
      (m.body.flatMap Stmt.locals).any (·.ty.hasZeroLength)) (methodBody cx d c m) :=
  (leads_note _ _).behind ((leads_newline _).behind
    (leads_lift (isPlain_signature ht hp hc) fun _ hcode =>
      (leads_line hcode).seq (isPlain_body ht hp m.body)))

end Functions

section Lists

variable {cx : Context} {d : Dialect} {c : ClassDef}

/-- An enumeration is left out before its braces could be empty. -/
theorem isPlain_enumeration (e : EnumDef) : IsPlain false (enumeration cx e) := by
  unfold enumeration
  split_ifs with hempty
  · exact leads_note _ _
  have hopen : Leads [.plain] [.opened] false (Emit.line [.word "enum", .gap, .symbol "\x7b"]) :=
    leads_line (by decide)
  have hclose : Leads [.plain, .list] [.plain] false (Emit.line [.symbol "\x7d", .symbol ";"]) :=
    leads_line (by decide)
  have hequals : Crosses ended [.list] false (Code.operator "=") := by decide
  have hvalue : ∀ entry : EnumValue × ℕ, Leads [.opened, .plain, .list] [.plain, .list] false
      (Emit.line ([Lexeme.word (e.name ++ "_" ++ Text.upperSnakeCase entry.1.name)] ++
        Code.operator "=" ++ [Lexeme.number (toString entry.2)] ++
          (if entry.2 + 1 < e.values.length then [Lexeme.symbol ","] else []))) := fun entry => by
    have hname := (IsScalar.word (e.name ++ "_" ++ Text.upperSnakeCase entry.1.name)).crosses
      (by decide : .length ∉ [Place.opened, .plain, .list])
    have hcomma : Crosses [.plain] [.plain, .list] false
        (if entry.2 + 1 < e.values.length then [.symbol ","] else []) := by
      split_ifs <;> decide
    exact leads_line (((hname.behind hequals).behind (crosses_number _ (by decide))).behind hcomma)
  have hvalues : Leads [.opened, .plain, .list] [.plain, .list] false
      (e.values.zipIdx.forM fun entry =>
        Emit.line ([Lexeme.word (e.name ++ "_" ++ Text.upperSnakeCase entry.1.name)] ++
          Code.operator "=" ++ [Lexeme.number (toString entry.2)] ++
            (if entry.2 + 1 < e.values.length then [Lexeme.symbol ","] else []))) := by
    cases hentries : e.values.zipIdx with
    | nil => exact absurd (by simpa using hentries) hempty
    | cons entry rest =>
        have hall : Leads [.opened, .plain, .list] [.plain, .list]
            ((entry :: rest).any fun _ => false) ((entry :: rest).forM _) :=
          leads_forM_cons (by decide) fun entry _ => hvalue entry
        rwa [List.any_eq_false.mpr (by simp)] at hall
  exact (leads_note _ _).behind ((leads_newline _).behind (hopen.behind
    ((hvalues.mono (by decide) (List.Subset.refl _)).deeper.behind hclose)))

/-- A structure without fields has a member. -/
theorem isPlain_structLayout (ht : cx.target = .cFamily d) (hp : cx.program.HasTypeNames)
    (hc : c.name ∉ leadingWords) :
    IsPlain (c.fields.any (·.ty.hasZeroLength)) (structLayout cx d c) := by
  have hfront : Crosses [.plain] [.word, .name] false [.word "struct", .gap] := by decide
  have hopen : Crosses [.name] [.opened] false [.gap, .symbol "\x7b"] := by decide
  have hname : Crosses [.word, .name] [.name] false [.word c.name] :=
    (crosses_name _ (.inl rfl) hc).2.mono (by decide) (List.Subset.refl _)
  have hhead : Leads [.plain] [.opened] false
      (Emit.line [.word "struct", .gap, .word c.name, .gap, .symbol "\x7b"]) :=
    leads_line ((hfront.behind hname).behind hopen)
  have hclose : Leads [.plain] [.plain] false (Emit.line [.symbol "\x7d", .symbol ";"]) :=
    leads_line (by decide)
  have hend : Crosses [.name] [.plain] false [.symbol ";"] := by decide
  have hfield : ∀ f ∈ c.fields, Leads [.plain, .opened] [.plain] f.ty.hasZeroLength (do
      Emit.line ((← (declaration cx d f.ty (cx.localWord f.name) : Result Code)) ++
        [Lexeme.symbol ";"])) := fun f _ =>
    leads_lift (crosses_declaration ht hp f.ty f.name) fun _ hcode =>
      leads_line ((hcode.mono (by decide) (List.Subset.refl _)).followed hend)
  have hmembers : Leads [.opened] [.plain] (c.fields.any (·.ty.hasZeroLength)) (do
      c.fields.forM fun f => do
        Emit.line ((← (declaration cx d f.ty (cx.localWord f.name) : Result Code)) ++
          [Lexeme.symbol ";"])
      if c.fields.isEmpty then
        Emit.line [.word "char", .gap, .word "unused", .symbol ";"]) := by
    cases hfields : c.fields with
    | nil =>
        have hunused : Leads [.opened] [.plain] false
            (Emit.line [.word "char", .gap, .word "unused", .symbol ";"]) := leads_line (by decide)
        exact (leads_pure (List.Subset.refl _) ()).behind hunused
    | cons f rest =>
        have hall := leads_forM_cons (by decide) (hfields ▸ hfield)
        exact (hall.mono (by decide) (List.Subset.refl _)).followed
          (leads_pure (List.Subset.refl _) ())
  exact (leads_note _ _).behind ((leads_newline _).behind
    (hhead.behind (hmembers.deeper.followed hclose)))

/-- The rows of a table of bytes, of which there is at least one. -/
theorem leads_byteLines {rows : List (List UInt8)} (hrows : ∀ row ∈ rows, row ≠ [])
    (hne : rows ≠ []) : Leads [.opened, .list] [.plain] false (byteLines rows) := by
  have hrow : ∀ row : List UInt8, row ≠ [] → Crosses [.opened, .list] [.plain] false
      (Code.commaSeparated (row.map fun b => [byteLexeme b])) := fun row hrow => by
    obtain ⟨b, more, rfl⟩ := List.exists_cons_of_ne_nil hrow
    have hcomma : Crosses [.plain] [.opened, .list] false Code.comma := by decide
    have hbyte : ∀ b, Crosses [.opened, .list] [.plain] false [byteLexeme b] := fun b =>
      crosses_number _ (by decide)
    have hmore := Crosses.forall₂_of_forall
      (List.forall_mem_map.mpr fun b (_ : b ∈ more) => hbyte b)
    have hall := Crosses.commaSeparated_cons hcomma (hbyte b) hmore
    simpa using hall
  induction rows with
  | nil => exact absurd rfl hne
  | cons row rest ih =>
      obtain ⟨hfirst, hrest⟩ := List.forall_mem_cons.mp hrows
      cases rest with
      | nil => exact leads_line (hrow row hfirst)
      | cons next rest =>
          have hcomma : Crosses [.plain] [.opened, .list] false [.symbol ","] := by decide
          exact (leads_line ((hrow row hfirst).behind hcomma)).behind (ih hrest (by simp))

/-- Nothing stands between the braces of a resource without bytes. -/
theorem isPlain_resourceTable (name : String) (bytes : List UInt8) :
    IsPlain bytes.isEmpty (resourceTable d name bytes) := by
  have hfront : Crosses [.plain] typed false (d.tableStorage ++ [d.readOnly, .gap,
      .word "unsigned", .gap, .word "char", .gap]) := by
    cases d <;> decide
  have hname : Crosses typed [.name] false [.word (resourceName name)] :=
    (crosses_name _ (.inl rfl) (notMem_leadingWords (by simp [resourceName]))).2
  have hopen : Crosses [.name] [.opened] false ([Lexeme.symbol "[", .symbol "]"] ++
      Code.operator "=" ++ [Lexeme.symbol "\x7b"]) := by decide
  have hhead : Leads [.plain] [.opened] false (Emit.line (d.tableStorage ++ [d.readOnly, .gap,
      .word "unsigned", .gap, .word "char", .gap, .word (resourceName name), .symbol "[",
      .symbol "]"] ++ Code.operator "=" ++ [Lexeme.symbol "\x7b"])) :=
    leads_line (by simpa using (hfront.behind hname).behind hopen)
  refine (leads_newline _).behind (hhead.behind ?_)
  cases bytes with
  | nil =>
      have hclose : Leads [.opened] [.plain] true (Emit.line [.symbol "\x7d", .symbol ";"]) :=
        leads_line (by decide)
      exact (leads_pure (List.Subset.refl _) ()).deeper.behind hclose
  | cons b rest =>
      have hclose : Leads [.plain] [.plain] false (Emit.line [.symbol "\x7d", .symbol ";"]) :=
        leads_line (by decide)
      have hrows := leads_byteLines (fun row hrow => (length_row hrow).1)
        (by simp [byteRows] : byteRows (b :: rest).length (b :: rest) ≠ [])
      exact (hrows.mono (by decide) (List.Subset.refl _)).deeper.behind hclose

end Lists

end Aggregates

end Emitter
