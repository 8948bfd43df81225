import Emitter.Proofs.Names.Known
import Emitter.Proofs.Whole.Assembled
import Emitter.Proofs.Whole.CodeLines

/-!
# Declared before use

In a printed C file, every function, constant, enumerator and resource that an item uses is declared
by a line of an item further up, in the spelling it is used in, and every body of a function follows
a prototype with the same head.
-/

namespace Emitter

open Layout Program Text

theorem Emit.exists_of_lift {α β : Type} {r : Result α} {next : α → Emit β} {b : β}
    (h : (liftM r >>= next).outcome = .ok b) :
    ∃ a, r = .ok a ∧ liftM r >>= next = next a := by
  cases r with
  | error fault =>
      have hfault : (Except.error fault : Result β) = .ok b := h
      cases hfault
  | ok a => exact ⟨a, rfl, rfl⟩

theorem Emit.forM_line {α : Type} (f : α → Code) (items : List α) :
    (items.forM fun item => Emit.line (f item)) =
      Emit.ofSteps (items.flatMap fun item => [.put (f item), .newline]) := by
  induction items with
  | nil => rfl
  | cons item rest ih =>
      change (Emit.line (f item) >>= fun _ => rest.forM _) = _
      rw [ih]
      rfl

namespace PrintedName

/-- The program has what the name refers to. -/
def Known (p : Program) : PrintedName → Prop
  | fixed _ | coined _ | type _ => True
  | function owner name => ∃ c, p.classOf owner = .ok c ∧ ∃ m ∈ c.methods, m.name = name
  | constructor id => p.constructs id = true
  | constant owner name => ∃ c, p.classOf owner = .ok c ∧ ∃ k, c.findConst name = some k
  | enumerator id index => ∃ e value, p.enumerator? id index = some (e, value)
  | resource name => p.resources.contains name = true

/-- The name refers to a function, a constant, an enumerator or a resource. -/
def isReference : PrintedName → Bool
  | fixed _ | coined _ | type _ => false
  | _ => true

end PrintedName

namespace CFamily

variable {cx : Context} {d : Dialect}

theorem known_enumerator {p : Program} {id : EnumId} {index : UInt64} {n : PrintedName}
    (hn : n ∈ PrintedName.ifPresent p (.enumerator id index)) : n.Known p := by
  unfold PrintedName.ifPresent at hn
  split_ifs at hn with hfound
  · obtain rfl := List.mem_singleton.mp hn
    obtain ⟨entry, hentry⟩ := Option.isSome_iff_exists.mp hfound
    exact ⟨entry.1, entry.2, hentry⟩
  · simp at hn

theorem known_resource {p : Program} {name : String} {n : PrintedName}
    (hn : n ∈ PrintedName.ifPresent p (.resource name)) : n.Known p := by
  unfold PrintedName.ifPresent at hn
  split_ifs at hn with hfound
  · obtain rfl := List.mem_singleton.mp hn
    exact hfound
  · simp at hn

/-- Names of declarations are only printed for what is there, if calls and constants are found. -/
theorem covers_known (ht : cx.target = .cFamily d) :
    cx.Covers cx.program.finds (PrintedName.Known cx.program) where
  language _ _ := trivial
  coined _ := trivial
  type _ _ := trivial
  constructor _ h := h
  enumerator _ _ _ hn := known_enumerator hn
  own e he n hn := by
    rw [Context.own_of_cFamily ht] at hn
    rcases own_cases hn with ⟨l, -, rfl⟩ | ⟨word, rfl⟩ | ⟨owner, name, ty, rfl, rfl⟩ |
      ⟨receiver, owner, name, isStatic, args, ty, rfl, rfl⟩ | ⟨id, index, hn⟩ | ⟨name, hn⟩
    · trivial
    · trivial
    · cases hclass : cx.program.classOf owner with
      | error id => simp [Program.finds, hclass, Except.toOption] at he
      | ok c =>
          have hfound : (c.findConst name).isSome = true := by
            simpa [Program.finds, hclass, Except.toOption] using he
          obtain ⟨k, hk⟩ := Option.isSome_iff_exists.mp hfound
          exact ⟨c, hclass, k, hk⟩
    · cases hclass : cx.program.classOf owner with
      | error id => simp [Program.finds, hclass, Except.toOption] at he
      | ok c =>
          refine ⟨c, hclass, ?_⟩
          simpa [Program.finds, hclass, Except.toOption] using he
    · exact known_enumerator hn
    · exact known_resource hn

/-- Where no expressions are printed, only enumerators are referred to. -/
theorem covers_enumerators : cx.CoversDeclared fun n => n.isReference = true →
    ∃ id index, n = .enumerator id index ∧ n.Known cx.program where
  language _ _ h := by simp [PrintedName.isReference] at h
  coined _ h := by simp [PrintedName.isReference] at h
  type _ _ h := by simp [PrintedName.isReference] at h
  enumerator id index n hn _ := by
    have hknown := known_enumerator hn
    unfold PrintedName.ifPresent at hn
    split_ifs at hn
    · obtain rfl := List.mem_singleton.mp hn
      exact ⟨id, index, rfl, hknown⟩
    · simp at hn

end CFamily

/-- The line declares the name: as a macro, as a function, as a value of an enumeration, or as a
table. -/
inductive Layout.Code.Declares : Code → String → Prop
  | define (name : String) (value : Code) :
      Declares ([.symbol "#", .word "define", .gap, .word name, .gap] ++ value) name
  | function (type : Code) (name : String) (params : Code) :
      Declares (type ++ .word name :: Code.parenthesized params ++ [.symbol ";"]) name
  | enumerator (name value : String) (rest : Code) :
      Declares (.word name :: Code.operator "=" ++ .number value :: rest) name
  | table (type : Code) (name : String) (rest : Code) :
      Declares (type ++ .word name :: .symbol "[" :: rest) name

theorem Layout.Code.Declares.of_eq {line line' : Code} {name : String} (h : line.Declares name)
    (heq : line' = line) : line'.Declares name := heq ▸ h

/-- Code with a symbol in it is more than line ends. -/
theorem Layout.Code.trimmed_text_ne_empty {code : Code} {s : String} (h : .symbol s ∈ code)
    (hs : ∃ c ∈ s.toList, c ≠ '\n') : trimmed code.text ≠ "" := by
  obtain ⟨c, hc, hne⟩ := hs
  have hmem : c ∈ code.text.toList := by
    rw [Code.toList_text]
    exact List.mem_flatMap.mpr ⟨_, h, hc⟩
  intro hempty
  have hdrop : code.text.toList.dropWhile (· = '\n') = [] := by
    simpa [trimmed] using congrArg String.toList hempty
  exact hne (by simpa using List.dropWhile_eq_nil_iff.mp hdrop c hmem)

/-- A line that declares a name is more than line ends. -/
theorem Layout.Code.Declares.trimmed_text_ne_empty {line : Code} {name : String}
    (h : line.Declares name) :
    trimmed line.text ≠ "" := by
  cases h with
  | define value => exact Code.trimmed_text_ne_empty (s := "#") (by simp) (by decide)
  | function type params => exact Code.trimmed_text_ne_empty (s := ";") (by simp) (by decide)
  | enumerator value rest =>
      exact Code.trimmed_text_ne_empty (s := "=") (by simp [Code.operator]) (by decide)
  | table type rest => exact Code.trimmed_text_ne_empty (s := "[") (by simp) (by decide)

namespace CFamily

/-- The names that an item declares. Bodies of functions declare none. -/
def Item.declared : Item → List String
  | enumeration e => e.values.map fun value => e.name ++ "_" ++ upperSnakeCase value.name
  | definition c k | table c k => [constName c k.emittedName]
  | constructorPrototype _ c => [constructName c.name]
  | prototype _ c m => [functionName c.name m.name]
  | resource name _ => [resourceName name]
  | _ => []

variable {cx : Context} {d : Dialect} {item : Item}

theorem exists_line_of_value {e : EnumDef} {value : EnumValue} (h : value ∈ e.values) :
    ∃ line ∈ (enumeration cx e).codeLines,
      line.Declares (e.name ++ "_" ++ upperSnakeCase value.name) := by
  let line : EnumValue × Nat → Code := fun entry =>
    [Lexeme.word (e.name ++ "_" ++ upperSnakeCase entry.1.name)] ++ Code.operator "=" ++
      [Lexeme.number (toString entry.2)] ++
        (if entry.2 + 1 < e.values.length then [Lexeme.symbol ","] else [])
  have hne : ¬e.values.isEmpty = true := by
    rw [List.isEmpty_iff]
    rintro hnil
    simp [hnil] at h
  have hlines : (enumeration cx e).codeLines =
      [] :: [.word "enum", .gap, .symbol "\x7b"] ::
        (e.values.zipIdx.map line ++ [[Lexeme.symbol "\x7d", Lexeme.symbol ";"]]) := by
    unfold enumeration
    rw [if_neg hne]
    change Emit.codeLines (do
      Emit.note _
      Emit.newline
      Emit.line _
      Emit.deeper (e.values.zipIdx.forM fun entry => Emit.line (line entry))
      Emit.line _) = _
    rw [Emit.forM_line]
    change [] :: _ :: Step.codeLines [] (((e.values.zipIdx.flatMap fun entry =>
      [Step.put (line entry), Step.newline]) ++ [Step.dedent]) ++ [Step.put _, Step.newline]) = _
    rw [List.append_assoc, Step.codeLines_flatMap]
    rfl
  obtain ⟨i, hi, rfl⟩ := List.getElem_of_mem h
  have hmem : line (e.values[i], i) ∈ e.values.zipIdx.map line :=
    List.mem_map_of_mem (by simp [List.mem_zipIdx_iff_getElem?, hi])
  refine ⟨line (e.values[i], i), ?_, .enumerator _ (toString i) _⟩
  rw [hlines]
  exact List.mem_cons_of_mem _ (List.mem_cons_of_mem _ (List.mem_append_left _ hmem))

theorem exists_line_of_declared {name : String} (hok : (item.emission cx d).outcome = .ok ())
    (h : name ∈ item.declared) :
    ∃ line ∈ (item.emission cx d).codeLines, line.Declares name := by
  cases item with
  | enumeration e =>
      obtain ⟨value, hvalue, rfl⟩ := List.mem_map.mp h
      exact exists_line_of_value hvalue
  | definition c k =>
      obtain rfl := List.mem_singleton.mp h
      obtain ⟨value, -, heq⟩ := Emit.exists_of_lift hok
      rw [show Item.emission cx d (.definition c k) = _ from heq]
      exact ⟨_, List.mem_singleton_self _, .define _ _⟩
  | table c k =>
      obtain rfl := List.mem_singleton.mp h
      obtain ⟨code, hcode, heq⟩ := Emit.exists_of_lift hok
      rw [show Item.emission cx d (.table c k) = _ from heq]
      refine ⟨_, List.mem_singleton_self _, ?_⟩
      unfold constTable at hcode
      split at hcode
      case h_1 element storage length items hty hvalue =>
        obtain ⟨type, -, hcode⟩ := Result.bind_eq_ok.mp hcode
        obtain ⟨value, -, hcode⟩ := Result.bind_eq_ok.mp hcode
        obtain rfl := Except.ok.inj hcode
        let before : Code := d.tableStorage ++ if type.endsInStar
          then type ++ [d.readOnly, Lexeme.gap]
          else d.readOnly :: Lexeme.gap :: type ++ [Lexeme.gap]
        let after : Code := Lexeme.number (toString items.length) :: Lexeme.symbol "]" ::
          Code.operator "=" ++ value ++ [Lexeme.symbol ";"]
        have hdeclares := Code.Declares.table before (constName c k.emittedName) after
        exact hdeclares.of_eq (by simp [before, after])
      case h_2 => simp [Context.unsupported] at hcode
  | constructorPrototype id c =>
      obtain rfl := List.mem_singleton.mp h
      refine ⟨_, List.mem_singleton_self _, ?_⟩
      exact (Code.Declares.function (linkage c.visibility ++ [Lexeme.word "void", Lexeme.gap])
        (constructName c.name) (selfParameter c)).of_eq (by simp [constructorSignature])
  | prototype id c m =>
      obtain rfl := List.mem_singleton.mp h
      obtain ⟨code, hcode, heq⟩ := Emit.exists_of_lift hok
      rw [show Item.emission cx d (.prototype id c m) = _ from heq]
      refine ⟨_, List.mem_singleton_self _, ?_⟩
      obtain ⟨returned, -, hcode⟩ := Result.bind_eq_ok.mp hcode
      obtain ⟨params, -, hcode⟩ := Result.bind_eq_ok.mp hcode
      obtain rfl := Except.ok.inj hcode
      exact .function (linkage m.visibility ++ beforeName returned) (functionName c.name m.name) _
  | resource name bytes =>
      obtain rfl := List.mem_singleton.mp h
      refine ⟨_, List.mem_cons_of_mem _ List.mem_cons_self, ?_⟩
      exact (Code.Declares.table (d.tableStorage ++ [d.readOnly, .gap, .word "unsigned", .gap,
        .word "char", .gap]) (resourceName name) (.symbol "]" :: Code.operator "=" ++
          [Lexeme.symbol "\x7b"])).of_eq (by simp)
  | _ => simp [Item.declared] at h

end CFamily

namespace Program

variable {p : Program} {id : ClassId} {c : ClassDef}

/-- Every class and every enumeration is among the top-level symbols. -/
def ListsAll (p : Program) : Prop := ∀ id, p.declares id = true → id ∈ p.globals

theorem ListsAll.shownClass (h : p.ListsAll) (hc : p.classOf id = .ok c) :
    (id, c) ∈ p.shownClasses :=
  mem_resolved.mpr ⟨List.mem_filterMap.mpr ⟨_, h _ (declares_of_classOf hc), rfl⟩, hc⟩

theorem ListsAll.shownEnum (h : p.ListsAll) {id : EnumId} {e : EnumDef}
    (he : p.enums[id.index.toNat]? = some e) : e ∈ p.shownEnums := by
  have hlt := (List.getElem?_eq_some_iff.mp he).1
  exact List.mem_filterMap.mpr ⟨id, List.mem_filterMap.mpr ⟨.enumeration id,
    h _ (by simpa [declares] using hlt), rfl⟩, he⟩

theorem listsAll_of_range
    (henums : ∀ i < p.enums.length, .enumeration ⟨UInt64.ofNat i⟩ ∈ p.globals)
    (hclasses : ∀ i < p.classes.length, .classDef ⟨UInt64.ofNat i⟩ ∈ p.globals) : p.ListsAll
  | .enumeration id, hid => by
      simpa using henums id.index.toNat (of_decide_eq_true hid)
  | .classDef id, hid => by
      simpa using hclasses id.index.toNat (of_decide_eq_true hid)

/-- Only a class that is there is constructed. -/
theorem exists_classOf_of_constructs (h : p.constructs id = true) : ∃ c, p.classOf id = .ok c := by
  cases hc : p.classOf id with
  | ok c => exact ⟨c, rfl⟩
  | error missing =>
      simp [constructs, needsConstruction, constructsWithin, hc, bind, Except.bind,
        Except.toOption] at h

end Program

namespace CFamily

variable {p : Program} {n : PrintedName}

theorem exists_enumeration (hl : p.ListsAll) {id : EnumId} {index : UInt64} {e : EnumDef}
    {value : EnumValue} (h : p.enumerator? id index = some (e, value)) :
    e ∈ p.shownEnums ∧ ∃ name, PrintedName.lexeme p (.enumerator id index) = .word name ∧
      name ∈ Item.declared (.enumeration e) := by
  obtain ⟨e', he, hvalue⟩ := Option.bind_eq_some_iff.mp h
  obtain ⟨value', hvalue', heq⟩ := Option.map_eq_some_iff.mp hvalue
  obtain ⟨rfl, rfl⟩ := Prod.mk.inj heq
  refine ⟨hl.shownEnum he, _, rfl, List.mem_map.mpr ⟨value', List.mem_of_getElem? hvalue', ?_⟩⟩
  simp [Program.enumeratorName, h]

/-- The declaration of what a name refers to is among the declarations of the file. -/
theorem exists_declared (hl : p.ListsAll) (hn : n.isReference = true) (hk : n.Known p) :
    ∃ name, n.lexeme p = .word name ∧ ∃ item ∈ declarationItems p, name ∈ item.declared := by
  cases n with
  | fixed | coined | type => simp [PrintedName.isReference] at hn
  | function owner name =>
      obtain ⟨c, hc, m, hm, rfl⟩ := hk
      exact ⟨_, rfl, _, prototype_mem (hl.shownClass hc) hm, by
        simp [Item.declared, Program.className_eq hc]⟩
  | constructor id =>
      obtain ⟨c, hc⟩ := Program.exists_classOf_of_constructs hk
      exact ⟨_, rfl, _, constructorPrototype_mem (hl.shownClass hc) hk, by
        simp [Item.declared, Program.className_eq hc]⟩
  | constant owner name =>
      obtain ⟨c, hc, k, hk⟩ := hk
      have hname : p.constantName owner name = constName c k.emittedName := by
        simp [Program.constantName, Program.classOf_eq_ok_iff.mp hc, hk]
      have hmem : k ∈ c.consts ++ c.constArrays := List.mem_of_find?_eq_some hk
      rcases List.mem_append.mp hmem with hmem | hmem
      · exact ⟨_, rfl, _, definition_mem (hl.shownClass hc) hmem, by simp [Item.declared, hname]⟩
      · exact ⟨_, rfl, _, table_mem (hl.shownClass hc) hmem, by simp [Item.declared, hname]⟩
  | enumerator id index =>
      obtain ⟨e, value, h⟩ := hk
      obtain ⟨he, name, hname, hdeclared⟩ := exists_enumeration hl h
      exact ⟨name, hname, _, enumeration_mem he, hdeclared⟩
  | resource name =>
      obtain ⟨entry, hentry, hname⟩ := List.any_eq_true.mp hk
      obtain rfl : entry.1 = name := of_decide_eq_true hname
      exact ⟨_, rfl, _, resource_mem hentry, List.mem_singleton_self _⟩

/-! The parts of a file come in a fixed order. What a name refers to is declared in an earlier part
or, for a layout, by an earlier step of the walk. -/

theorem mem_front {α : Type} {xs ys front back : List α} {x y : α}
    (h : xs ++ ys = front ++ y :: back) (hy : y ∉ xs) (hx : x ∈ xs) : x ∈ front := by
  rcases List.append_eq_append_iff.mp h with ⟨rest, rfl, -⟩ | ⟨rest, rfl, hrest⟩
  · exact List.mem_append_left _ hx
  · cases rest with
    | nil => simpa using hx
    | cons z rest =>
        obtain ⟨rfl, -⟩ := List.cons.inj hrest
        simp at hy

variable {cx : Context} {d : Dialect} {front back : List Item} {item : Item}

theorem isBody_of_mem_declarationItems (h : item ∈ declarationItems p) : item.isBody = false := by
  simp only [declarationItems, List.mem_append, List.mem_map, List.mem_flatMap] at h
  rcases h with (((((( ⟨_, -, rfl⟩ | ⟨_, -, rfl⟩) | ⟨_, -, _, -, rfl⟩) | ⟨_, -, h⟩) | ⟨_, -, h⟩) |
    ⟨_, -, rfl⟩) | ⟨_, -, rfl⟩) | ⟨_, -, _, -, rfl⟩
  all_goals try rfl
  · split_ifs at h
    · simp at h
    · obtain rfl := List.mem_singleton.mp h
      rfl
  · rcases h with h | ⟨_, -, rfl⟩
    · split_ifs at h
      · obtain rfl := List.mem_singleton.mp h
        rfl
      · simp at h
    · rfl

theorem isBody_of_mem_before (h : item ∈ headerItems cx d ++ declarationItems cx.program ++
    helperItems cx d) : item.isBody = false := by
  simp only [List.mem_append] at h
  rcases h with (h | h) | h
  · unfold headerItems at h
    split at h
    · obtain ⟨_, -, rfl⟩ := List.mem_map.mp h
      rfl
    · simp at h
  · exact isBody_of_mem_declarationItems h
  · unfold helperItems at h
    split at h
    · simp at h
    · obtain ⟨_, -, rfl⟩ := List.mem_map.mp h
      rfl

theorem enumerator_notMem_names {id : EnumId} {index : UInt64}
    (h : item ∈ headerItems cx d ++
      (p.natives.map Item.native ++ p.shownEnums.map Item.enumeration)) :
    .enumerator id index ∉ item.names cx d := by
  simp only [List.mem_append] at h
  rcases h with h | h | h
  · unfold headerItems at h
    split at h
    · obtain ⟨_, -, rfl⟩ := List.mem_map.mp h
      simp [Item.names]
    · simp at h
  · obtain ⟨_, -, rfl⟩ := List.mem_map.mp h
    simp [Item.names]
  · obtain ⟨_, -, rfl⟩ := List.mem_map.mp h
    simp only [Item.names]
    split_ifs <;> simp

/-- Only enumerators are referred to outside the bodies of functions, and not before the
enumerations. -/
theorem exists_declared_before (ht : cx.target = .cFamily d)
    (hl : cx.program.ListsAll) (hfinds : cx.program.everyExpr cx.program.finds = true)
    (hitems : items cx d = front ++ item :: back) (hof : item.Of cx.program)
    (hn : n ∈ item.names cx d) (hreference : n.isReference = true) :
    ∃ name, n.lexeme cx.program = .word name ∧ ∃ earlier ∈ front, name ∈ earlier.declared := by
  cases hbody : item.isBody with
  | true =>
      have hknown := forall_names (covers_known ht) ht hfinds hof n hn
      obtain ⟨name, hname, earlier, hearlier, hdeclared⟩ := exists_declared hl hreference hknown
      refine ⟨name, hname, earlier, mem_front hitems (fun hmem => ?_) ?_, hdeclared⟩
      · simp [isBody_of_mem_before hmem] at hbody
      · exact List.mem_append_left _ (List.mem_append_right _ hearlier)
  | false =>
      obtain ⟨id, index, rfl, e, value, hvalue⟩ :=
        forall_names_of_not_isBody covers_enumerators ht hof hbody n hn hreference
      obtain ⟨he, name, hname, hdeclared⟩ := exists_enumeration hl hvalue
      obtain ⟨rest, hrest⟩ := exists_declarationItems cx.program
      have hsplit : (headerItems cx d ++ (cx.program.natives.map Item.native ++
          cx.program.shownEnums.map Item.enumeration)) ++
            (rest ++ helperItems cx d ++ bodyItems cx.program) = front ++ item :: back := by
        rw [← hitems, items, hrest]
        simp only [List.append_assoc]
      refine ⟨name, hname, _, mem_front hsplit (fun hmem => ?_) ?_, hdeclared⟩
      · exact enumerator_notMem_names hmem hn
      · exact List.mem_append_right _ (List.mem_append_right _ (List.mem_map_of_mem he))

/-- The head of the function that the item is the body of. -/
def Item.head? (cx : Context) (d : Dialect) : Item → Option Code
  | .constructor _ c => some (constructorSignature c)
  | .method _ c m => (signature cx d c m).toOption
  | _ => none

theorem printsText_item (ht : cx.target = .cFamily d)
    (hof : item.Of cx.program) (hok : (item.emission cx d).outcome = .ok ()) :
    (∀ step ∈ (item.emission cx d).steps, step.staysInFile = true) ∧
      (item.emission cx d).PrintsText (item.emission cx d).text := by
  have hstay := (prints_item ht hof (item.emission cx d).steps () (by rw [← hok])).1
  exact ⟨hstay, Emit.printsText_text hok (plays_item item) hstay (keeps_item item)⟩

theorem endsLine_text (ht : cx.target = .cFamily d)
    (hof : item.Of cx.program) (hok : (item.emission cx d).outcome = .ok ()) :
    EndsLine (item.text cx d) := (printsText_item ht hof hok).2.endsLine.trimmed

theorem hasLine_text (ht : cx.target = .cFamily d)
    (hof : item.Of cx.program) (hok : (item.emission cx d).outcome = .ok ()) {line : Code}
    (hline : line ∈ (item.emission cx d).codeLines) (hne : trimmed line.text ≠ "") :
    HasLine (item.text cx d) (trimmed line.text) := by
  obtain ⟨hstay, hprints⟩ := printsText_item ht hof hok
  exact (Emit.hasLine_text hstay hprints hline).trim hne

/-- The head of a function is a line of its body. -/
theorem exists_head (hbody : item.isBody = true) (hok : (item.emission cx d).outcome = .ok ()) :
    ∃ head ∈ (item.emission cx d).codeLines, item.head? cx d = some head := by
  cases item with
  | constructor id c =>
      exact ⟨_, List.mem_cons_of_mem _ List.mem_cons_self, rfl⟩
  | method id c m =>
      obtain ⟨code, hcode, heq⟩ := Emit.exists_of_lift (show (liftM (signature cx d c m) >>=
        fun code => (do Emit.line code; cx.body m.body : Emit Unit)).outcome = .ok () from hok)
      refine ⟨code, ?_, by simp [Item.head?, hcode, Except.toOption]⟩
      change code ∈
        Step.codeLines [] ([Step.note _, Step.newline] ++ (liftM (signature cx d c m) >>=
        fun code => (do Emit.line code; cx.body m.body : Emit Unit)).steps)
      rw [heq]
      exact List.mem_cons_of_mem _ List.mem_cons_self
  | _ => simp [Item.isBody] at hbody

/-- In front of the body of a function there is a prototype, which has the same head. -/
theorem exists_prototype (hitems : items cx d = front ++ item :: back) {head : Code}
    (hhead : item.head? cx d = some head) :
    ∃ earlier ∈ front, head ++ [Lexeme.symbol ";"] ∈ (earlier.emission cx d).codeLines := by
  have hbody : item.isBody = true := by
    cases item with
    | constructor | method => rfl
    | _ => simp [Item.head?] at hhead
  have hbefore : item ∉ headerItems cx d ++ declarationItems cx.program ++ helperItems cx d :=
    fun hmem => by simp [isBody_of_mem_before hmem] at hbody
  have hfront : ∀ earlier ∈ declarationItems cx.program, earlier ∈ front := fun earlier hmem =>
    mem_front hitems hbefore (List.mem_append_left _ (List.mem_append_right _ hmem))
  have hmem : item ∈ bodyItems cx.program := by
    have hall : item ∈ items cx d := by simp [hitems]
    exact (List.mem_append.mp hall).resolve_left hbefore
  obtain ⟨entry, hentry, hitem⟩ := List.mem_flatMap.mp hmem
  rcases List.mem_append.mp hitem with hitem | hitem
  · split_ifs at hitem with hconstructs
    · obtain rfl := List.mem_singleton.mp hitem
      obtain rfl := Option.some.inj hhead
      exact ⟨_, hfront _ (constructorPrototype_mem hentry hconstructs), List.mem_singleton_self _⟩
    · simp at hitem
  · obtain ⟨m, hm, rfl⟩ := List.mem_map.mp hitem
    refine ⟨_, hfront _ (prototype_mem hentry hm), ?_⟩
    cases hcode : signature cx d entry.2 m with
    | error fault => simp [Item.head?, hcode, Except.toOption] at hhead
    | ok code =>
        obtain rfl : code = head := by simpa [Item.head?, hcode, Except.toOption] using hhead
        simp only [Item.emission, hcode]
        exact List.mem_singleton_self _

theorem exists_symbol_of_head {head : Code} (h : item.head? cx d = some head) :
    .symbol "(" ∈ head := by
  cases item with
  | constructor id c =>
      obtain rfl := Option.some.inj h
      simp [constructorSignature, Code.parenthesized]
  | method id c m =>
      cases hcode : signature cx d c m with
      | error fault => simp [Item.head?, hcode, Except.toOption] at h
      | ok code =>
          obtain rfl : code = head := by simpa [Item.head?, hcode, Except.toOption] using h
          obtain ⟨returned, -, hcode⟩ := Result.bind_eq_ok.mp hcode
          obtain ⟨params, -, hcode⟩ := Result.bind_eq_ok.mp hcode
          obtain rfl := Except.ok.inj hcode
          simp [Code.parenthesized]
  | _ => simp [Item.head?] at h

/-- In a C file that is written, an item stands behind the lines of the items in front of it. -/
theorem exists_placed {o : Options} {files : List OutputFile}
    (h : (generate (Target.cFamily d).name p o).files = .ok files) :
    ∃ contents, files = [⟨outputPath (.cFamily d) o.output, contents⟩] ∧
      Spread ((items ⟨p, .cFamily d, none⟩ d).map (Item.text ⟨p, .cFamily d, none⟩ d)) contents ∧
      ∀ front item back, items ⟨p, .cFamily d, none⟩ d = front ++ item :: back →
        item.Of p ∧ (item.emission ⟨p, .cFamily d, none⟩ d).outcome = .ok () ∧
        ∃ before after, contents = before ++ item.text ⟨p, .cFamily d, none⟩ d ++ after ∧
          Context.Lists ⟨p, .cFamily d, none⟩ (item.names ⟨p, .cFamily d, none⟩ d)
            (Step.names (item.emission ⟨p, .cFamily d, none⟩ d).steps) ∧
          ∀ earlier ∈ front, ∀ line ∈ (earlier.emission ⟨p, .cFamily d, none⟩ d).codeLines,
            trimmed line.text ≠ "" → HasLine before (trimmed line.text) := by
  obtain ⟨contents, hfiles, hspread, hall⟩ := generate_eq_ok h
  refine ⟨contents, hfiles, hspread, fun front item back hitems => ?_⟩
  have hmem : ∀ earlier ∈ front, earlier ∈ items ⟨p, .cFamily d, none⟩ d := fun earlier hearlier =>
    hitems ▸ List.mem_append_left _ hearlier
  have hends : ∀ text ∈ front.map (Item.text ⟨p, .cFamily d, none⟩ d), EndsLine text := by
    intro text htext
    obtain ⟨earlier, hearlier, rfl⟩ := List.mem_map.mp htext
    obtain ⟨hof, hok⟩ := hall earlier (hmem earlier hearlier)
    exact endsLine_text rfl hof hok
  obtain ⟨hof, hok⟩ := hall item (by simp [hitems])
  rw [hitems, List.map_append, List.map_cons] at hspread
  obtain ⟨before, after, hcontents, hbefore, -⟩ := hspread.split
  refine ⟨hof, hok, before, after, hcontents, (prints_item rfl hof _ () (by rw [← hok])).2,
    fun earlier hearlier line hline hne => ?_⟩
  obtain ⟨hof, hok⟩ := hall earlier (hmem earlier hearlier)
  exact hbefore.hasLine hends (List.mem_map_of_mem hearlier)
    (hasLine_text rfl hof hok hline hne)

end CFamily

open CFamily

/-- In a program whose symbols are all listed, whose calls name methods of their classes and whose
constants are found, a C file that is written declares everything before it is used: the file
consists of the items, and whatever name of a function, a constant, an enumerator or a resource is
among the words of an item, a line in front of the item declares it in that spelling. In front of
the body of a function there is also a prototype with the body's own head. -/
theorem declared_before_use {p : Program} {d : Dialect} {o : Options} {files : List OutputFile}
    (hl : p.ListsAll) (hfinds : p.everyExpr p.finds = true)
    (h : (generate (Target.cFamily d).name p o).files = .ok files) :
    ∃ contents, files = [⟨outputPath (.cFamily d) o.output, contents⟩] ∧
      Spread ((items ⟨p, .cFamily d, none⟩ d).map (Item.text ⟨p, .cFamily d, none⟩ d)) contents ∧
      ∀ front item back, items ⟨p, .cFamily d, none⟩ d = front ++ item :: back →
        ∃ before after, contents = before ++ item.text ⟨p, .cFamily d, none⟩ d ++ after ∧
          Context.Lists ⟨p, .cFamily d, none⟩ (item.names ⟨p, .cFamily d, none⟩ d)
            (Step.names (item.emission ⟨p, .cFamily d, none⟩ d).steps) ∧
          (∀ n ∈ item.names ⟨p, .cFamily d, none⟩ d, n.isReference = true →
            ∃ (name : String) (line : Code), n.lexeme p = .word name ∧ line.Declares name ∧
              HasLine before (trimmed line.text)) ∧
          (item.isBody = true → ∃ head, item.head? ⟨p, .cFamily d, none⟩ d = some head ∧
            HasLine (item.text ⟨p, .cFamily d, none⟩ d) (trimmed head.text) ∧
            HasLine before (trimmed (Code.text (head ++ [.symbol ";"])))) := by
  obtain ⟨contents, hfiles, hspread, hall⟩ := exists_placed h
  refine ⟨contents, hfiles, hspread, fun front item back hitems => ?_⟩
  obtain ⟨hof, hok, before, after, hcontents, hnames, hline⟩ := hall front item back hitems
  refine ⟨before, after, hcontents, hnames, fun n hn hreference => ?_, fun hbody => ?_⟩
  · obtain ⟨name, hname, earlier, hearlier, hdeclared⟩ :=
      exists_declared_before rfl hl hfinds hitems hof hn hreference
    obtain ⟨ahead, behind, hfront⟩ := List.append_of_mem hearlier
    obtain ⟨-, hearlierOk, -⟩ :=
      hall ahead earlier (behind ++ item :: back) (by simp [hitems, hfront])
    obtain ⟨line, hlines, hdeclares⟩ := exists_line_of_declared hearlierOk hdeclared
    exact ⟨name, line, hname, hdeclares,
      hline earlier hearlier line hlines hdeclares.trimmed_text_ne_empty⟩
  · obtain ⟨head, hhead, hhead?⟩ := exists_head hbody hok
    obtain ⟨earlier, hearlier, hprototype⟩ := exists_prototype hitems hhead?
    have hopens : .symbol "(" ∈ head := exists_symbol_of_head hhead?
    have hne : ∀ {code : Code}, .symbol "(" ∈ code → trimmed code.text ≠ "" :=
      fun h => Code.trimmed_text_ne_empty h (by decide)
    exact ⟨head, hhead?, hasLine_text rfl hof hok hhead (hne hopens),
      hline earlier hearlier _ hprototype (hne (List.mem_append_left _ hopens))⟩

/-- A class whose constant is a value of an enumeration, with a method that calls another. -/
def Program.ClassDef.calling : ClassDef :=
  ⟨"Game", .exported, none, none,
    [.const ⟨"First", .exported, none, .enumeration ⟨0⟩, .enumValue ⟨0⟩ 0, none⟩,
      .method ⟨"run", .exported, none, true, [], .enumeration ⟨0⟩,
        [.returnValue (some (.call none (.user ⟨0⟩ "paint" true) [] (.enumeration ⟨0⟩)))]⟩,
      .method ⟨"paint", .exported, none, true, [], .enumeration ⟨0⟩,
        [.returnValue (some (.const ⟨0⟩ "First" (.enumeration ⟨0⟩)))]⟩], []⟩

def Program.calling : Program :=
  ⟨[⟨"Color", .exported, none, [⟨"Red", none⟩]⟩], [.calling],
    [.enumeration ⟨0⟩, .classDef ⟨0⟩], [], .empty⟩

theorem Program.listsAll_calling : calling.ListsAll := listsAll_of_range (by decide) (by decide)

/-- A method is declared before it is called further up than it is defined. -/
theorem declared_before_use_calling :
    Program.calling.ListsAll ∧ Program.calling.everyExpr Program.calling.finds = true ∧
    ∃ contents before after, (generate "c" Program.calling ⟨⟨"game"⟩, none⟩).files =
        .ok [⟨⟨"game.c"⟩, contents⟩] ∧
      contents = before ++ "int Game_run(void)\n\x7b\n\treturn Game_paint();\n\x7d\n" ++ after ∧
      ∃ line : Code, line.Declares "Game_paint" ∧ HasLine before (trimmed line.text) := by
  have hfinds : Program.calling.everyExpr Program.calling.finds = true := by decide +kernel
  obtain ⟨files, hfiles⟩ : ∃ files,
      (generate "c" Program.calling ⟨⟨"game"⟩, none⟩).files = .ok files := ⟨_, rfl⟩
  obtain ⟨contents, hcontents, -, hitems⟩ :=
    declared_before_use (d := .standard) Program.listsAll_calling hfinds hfiles
  obtain ⟨before, after, hsplit, -, hdeclared, -⟩ :=
    hitems _ (.method ⟨0⟩ .calling (ClassDef.calling.methods.get ⟨0, by decide⟩)) _ rfl
  obtain ⟨name, line, hname, hline, hbefore⟩ := hdeclared (.function ⟨0⟩ "paint")
    (List.mem_of_getElem? (i := 4) rfl) rfl
  obtain rfl : "Game_paint" = name := Lexeme.word.inj hname
  exact ⟨Program.listsAll_calling, hfinds, contents, before, after, hcontents ▸ hfiles,
    hsplit, line, hline, hbefore⟩

end Emitter
