import Emitter.Proofs.Names.Declared
import Emitter.Proofs.Whole.LayoutOrder

/-!
# Types before they are named

In a printed C file, a class with instances is introduced in front of every place where its name is
printed as a type, and it is laid out in front of the classes that hold it by value. Static classes
are neither introduced nor laid out, whether types name them or not, and classes that hold each
other in a circle cannot all be laid out in front of their holders.
-/

namespace Emitter

open Layout Program Relation Text

namespace CFamily

variable {cx : Context} {d : Dialect} {p : Program} {front back : List Item} {item : Item}
  {id held : ClassId} {c : ClassDef}

theorem type_notMem_ifPresent {n : PrintedName} (hn : ∀ id, n ≠ .type id) :
    .type id ∉ PrintedName.ifPresent p n := by
  unfold PrintedName.ifPresent
  split_ifs
  · simpa using (hn id).symm
  · simp

/-- Only classes that are there are named as types, in a whole program. -/
theorem covers_declared (ht : cx.target = .cFamily d) : cx.Covers (fun _ => true) fun n =>
    ∀ id, n = .type id → cx.program.Whole → cx.program.declares (.classDef id) = true where
  language _ _ _ h := nomatch h
  coined _ _ h := nomatch h
  type id hid i h := by
    obtain rfl := PrintedName.type.inj h
    exact hid
  constructor _ _ _ h := nomatch h
  enumerator id index n hn i h := by
    subst h
    exact absurd hn (type_notMem_ifPresent nofun)
  own e _ n hn i h := by
    subst h
    rw [Context.own_of_cFamily ht] at hn
    rcases own_cases hn with ⟨_, -, h⟩ | ⟨_, h⟩ | ⟨_, _, _, -, h⟩ | ⟨_, _, _, _, _, _, -, h⟩ |
      ⟨_, _, hn⟩ | ⟨_, hn⟩
    · cases h
    · cases h
    · cases h
    · cases h
    · exact absurd hn (type_notMem_ifPresent nofun)
    · exact absurd hn (type_notMem_ifPresent nofun)

theorem exists_classOf_of_type_mem (ht : cx.target = .cFamily d) (hp : cx.program.Whole)
    (hof : item.Of cx.program) (h : .type id ∈ item.names cx d) :
    ∃ c, cx.program.classOf id = .ok c := by
  obtain ⟨c, -, hc⟩ := exists_classOf
    (forall_names (covers_declared ht) ht cx.program.everyExpr_true hof _ h id rfl hp)
  exact ⟨c, hc⟩

mutual

theorem type_notMem_valueNames : ∀ value, .type id ∉ valueNames p value
  | .bool b => by simp [valueNames]
  | .enumValue e index => by
      rw [valueNames, PrintedName.ifPresent]
      split_ifs <;> simp
  | .array items => by
      rw [valueNames]
      exact type_notMem_itemNames items
  | .int _ | .float _ | .str _ => by simp [valueNames]

theorem type_notMem_itemNames : ∀ items, .type id ∉ itemNames p items
  | [] => by simp [itemNames]
  | item :: rest => by
      rw [itemNames, List.mem_append, not_or]
      exact ⟨type_notMem_valueNames item, type_notMem_itemNames rest⟩

end

/-- The items up to the introductions of classes. -/
def introductionItems (cx : Context) (d : Dialect) : List Item :=
  headerItems cx d ++ (cx.program.natives.map .native ++ cx.program.shownEnums.map .enumeration ++
    cx.program.shownClasses.flatMap (fun (_, c) => c.consts.map (.definition c)) ++
    cx.program.shownClasses.flatMap fun (id, c) => if c.isStatic then [] else [.typedef id c])

theorem exists_introductionItems (cx : Context) (d : Dialect) :
    ∃ rest, items cx d = introductionItems cx d ++ rest := by
  simp only [items, declarationItems, introductionItems, List.append_assoc]
  exact ⟨_, rfl⟩

/-- No types are printed before the introductions of classes are over. -/
theorem type_notMem_introduction (h : item ∈ introductionItems cx d) :
    .type id ∉ item.names cx d := by
  simp only [introductionItems, List.mem_append] at h
  rcases h with h | ((h | h) | h) | h
  · unfold headerItems at h
    split at h
    · obtain ⟨_, -, rfl⟩ := List.mem_map.mp h
      simp [Item.names]
    · simp at h
  · obtain ⟨_, -, rfl⟩ := List.mem_map.mp h
    simp [Item.names]
  · obtain ⟨_, -, rfl⟩ := List.mem_map.mp h
    simp only [Item.names]
    split_ifs <;> simp
  · obtain ⟨_, -, h⟩ := List.mem_flatMap.mp h
    obtain ⟨k, -, rfl⟩ := List.mem_map.mp h
    simpa [Item.names] using type_notMem_valueNames k.value
  · obtain ⟨_, -, h⟩ := List.mem_flatMap.mp h
    split_ifs at h
    · simp at h
    · obtain rfl := List.mem_singleton.mp h
      simp [Item.names]

/-- The line that introduces a class comes before its name is printed as a type. -/
theorem typedef_mem_front (hl : cx.program.ListsAll) (hitems : items cx d = front ++ item :: back)
    (h : .type id ∈ item.names cx d) (hc : cx.program.classOf id = .ok c)
    (hstatic : c.isStatic = false) : .typedef id c ∈ front := by
  obtain ⟨rest, hrest⟩ := exists_introductionItems cx d
  refine mem_front (hrest.symm.trans hitems) (fun hmem => type_notMem_introduction hmem h) ?_
  refine List.mem_append_right _
    (List.mem_append_right _ (List.mem_flatMap.mpr ⟨_, hl.shownClass hc, ?_⟩))
  simp [hstatic]

theorem exists_middle {α : Type} {xs ys zs front back : List α} {y : α}
    (h : xs ++ ys ++ zs = front ++ y :: back) (hx : y ∉ xs) (hz : y ∉ zs) :
    ∃ inner rest, front = xs ++ inner ∧ ys = inner ++ y :: rest := by
  have hmiddle : ∀ {inner}, ys ++ zs = inner ++ y :: back → ∃ rest, ys = inner ++ y :: rest := by
    intro inner hinner
    rcases List.append_eq_append_iff.mp hinner with ⟨rest, -, rfl⟩ | ⟨rest, hys, hrest⟩
    · simp at hz
    · cases rest with
      | nil => simp [← show y :: back = zs from hrest] at hz
      | cons z rest =>
          obtain ⟨rfl, -⟩ := List.cons.inj hrest
          exact ⟨rest, hys⟩
  rw [List.append_assoc] at h
  rcases List.append_eq_append_iff.mp h with ⟨inner, rfl, hinner⟩ | ⟨rest, hxs, hrest⟩
  · obtain ⟨rest, hys⟩ := hmiddle hinner
    exact ⟨inner, rest, rfl, hys⟩
  · cases rest with
    | nil =>
        obtain ⟨rest, hys⟩ := @hmiddle [] hrest.symm
        exact ⟨[], rest, by simpa using hxs.symm, hys⟩
    | cons z rest =>
        obtain ⟨rfl, -⟩ := List.cons.inj hrest
        simp [hxs] at hx

/-- What is in front of a layout: items that are none, and the layouts in front of it. -/
theorem exists_laidOut (hitems : items cx d = front ++ .layout id c :: back) :
    ∃ inner rest, cx.program.laidOut = inner ++ (id, c) :: rest ∧
      ∀ entry ∈ inner, .layout entry.1 entry.2 ∈ front := by
  obtain ⟨xs, zs, hsplit, hxs, hzs⟩ : ∃ xs zs, items cx d =
      xs ++ cx.program.laidOut.map (fun entry => Item.layout entry.1 entry.2) ++ zs ∧
        Item.layout id c ∉ xs ∧ Item.layout id c ∉ zs := by
    refine ⟨introductionItems cx d ++ cx.program.shownClasses.flatMap fun entry =>
        (if cx.program.constructs entry.1 then [Item.constructorPrototype entry.1 entry.2]
          else []) ++
          entry.2.methods.map (Item.prototype entry.1 entry.2),
      cx.program.resources.entries.map (fun entry => Item.resource entry.1 entry.2) ++
        cx.program.shownClasses.flatMap
          (fun entry => entry.2.constArrays.map (Item.table entry.2)) ++
          helperItems cx d ++ bodyItems cx.program, ?_, ?_, ?_⟩
    · simp only [items, declarationItems, introductionItems, List.append_assoc]
    · unfold introductionItems headerItems
      cases d <;> simp
    · unfold helperItems bodyItems
      cases d <;> simp
  obtain ⟨inner, rest, rfl, hmiddle⟩ := exists_middle (hsplit.symm.trans hitems) hxs hzs
  obtain ⟨ahead, behind, hlaidOut, rfl, hbehind⟩ := List.map_eq_append_iff.mp hmiddle
  obtain ⟨entry, behind, rfl, hentry, -⟩ := List.map_eq_cons_iff.mp hbehind
  obtain ⟨rfl, rfl⟩ := Item.layout.inj hentry
  exact ⟨ahead, behind, hlaidOut, fun entry hmem =>
    List.mem_append_right _ (List.mem_map_of_mem hmem)⟩

/-- A class that is held by value is laid out in front of its holder, or it holds its holder in
turn. -/
theorem layout_mem_front (hp : cx.program.Whole)
    (hitems : items cx d = front ++ .layout id c :: back) (hheld : cx.program.Holds id held)
    {c' : ClassDef} (hc' : cx.program.classOf held = .ok c') (hstatic : c'.isStatic = false) :
    .layout held c' ∈ front ∨ TransGen cx.program.Holds held id := by
  obtain ⟨order, horder, -, hsound⟩ := hp.layoutOrder_sound
  obtain ⟨inner, rest, hlaidOut, hfront⟩ := exists_laidOut hitems
  rw [Program.laidOut, horder, Except.toOption, Option.getD_some, Program.resolved] at hlaidOut
  obtain ⟨ahead, behind, rfl, hahead, hbehind⟩ := List.filterMap_eq_append_iff.mp hlaidOut
  obtain ⟨skipped, entry, behind, rfl, hskipped, hentry, -⟩ := List.filterMap_eq_cons_iff.mp hbehind
  obtain ⟨c, -, heq⟩ := Option.map_eq_some_iff.mp hentry
  obtain ⟨rfl, rfl⟩ := Prod.mk.inj heq
  rcases hsound (ahead ++ skipped) _ behind (by simp) held hheld ⟨c', hc', hstatic⟩ with
    hmem | hcircle
  · refine .inl (hfront (held, c') (hahead ▸ ?_))
    have hfound : (cx.program.classes[held.index.toNat]?).map (held, ·) = some (held, c') := by
      rw [Program.classOf_eq_ok_iff.mp hc']
      rfl
    rcases List.mem_append.mp hmem with hmem | hmem
    · exact List.mem_filterMap.mpr ⟨held, hmem, hfound⟩
    · simp [hskipped held hmem] at hfound
  · exact .inr hcircle

end CFamily

open CFamily

/-- In a program whose classes are all listed, a C file that is written introduces every class that
is not static in front of every item with its name as a type, and lays it out in front of every
class that holds it by value, itself or in storage arrays, and that it does not hold in turn. -/
theorem introduced_before_named {p : Program} {d : Dialect} {o : Options} {files : List OutputFile}
    (hp : p.findDangling = none) (hl : p.ListsAll)
    (h : (generate (Target.cFamily d).name p o).files = .ok files) :
    ∃ contents, files = [⟨outputPath (.cFamily d) o.output, contents⟩] ∧
      Spread ((items ⟨p, .cFamily d, none⟩ d).map (Item.text ⟨p, .cFamily d, none⟩ d)) contents ∧
      ∀ front item back, items ⟨p, .cFamily d, none⟩ d = front ++ item :: back →
        ∃ before after, contents = before ++ item.text ⟨p, .cFamily d, none⟩ d ++ after ∧
          Context.Lists ⟨p, .cFamily d, none⟩ (item.names ⟨p, .cFamily d, none⟩ d)
            (Step.names (item.emission ⟨p, .cFamily d, none⟩ d).steps) ∧
          (∀ id, .type id ∈ item.names ⟨p, .cFamily d, none⟩ d → ∃ c, p.classOf id = .ok c ∧
            (c.isStatic = false →
              HasLine before ("typedef struct " ++ c.name ++ " " ++ c.name ++ ";"))) ∧
          ∀ id c, item = .layout id c → ∀ f ∈ c.fields, ∀ held, f.ty.heldClass = some held →
            ∃ c', p.classOf held = .ok c' ∧ (c'.isStatic = false →
              .layout held c' ∈ front ∧ HasLine before ("struct " ++ c'.name ++ " \x7b") ∨
                TransGen p.Holds held id) := by
  obtain ⟨contents, hfiles, hspread, hall⟩ := exists_placed h
  have hwhole := Program.whole_of_findDangling hp
  refine ⟨contents, hfiles, hspread, fun front item back hitems => ?_⟩
  obtain ⟨hof, hok, before, after, hcontents, hnames, hline⟩ := hall front item back hitems
  refine ⟨before, after, hcontents, hnames, fun id htype => ?_, ?_⟩
  · obtain ⟨c, hc⟩ := exists_classOf_of_type_mem rfl hwhole hof htype
    refine ⟨c, hc, fun hstatic => ?_⟩
    have hmem := typedef_mem_front hl hitems htype hc hstatic
    have htext : Code.text [.word "typedef", .gap, .word "struct", .gap, .word c.name, .gap,
        .word c.name, .symbol ";"] = "typedef struct " ++ c.name ++ " " ++ c.name ++ ";" :=
      String.toList_inj.mp (by simp [Code.toList_text, Lexeme.text])
    have htrimmed : trimmed ("typedef struct " ++ c.name ++ " " ++ c.name ++ ";") =
        "typedef struct " ++ c.name ++ " " ++ c.name ++ ";" :=
      String.toList_inj.mp (by simp [trimmed])
    simpa [htext, htrimmed] using hline _ hmem _ (List.mem_singleton_self _)
  · rintro id c rfl f hf held hheld
    have hholds : p.Holds id held := ⟨c, hof, List.mem_filterMap.mpr ⟨f, hf, hheld⟩⟩
    obtain ⟨c', -, hc'⟩ := exists_classOf (hwhole.heldClasses
      (Program.mem_classes_of_classOf hof) (List.mem_filterMap.mpr ⟨f, hf, hheld⟩))
    refine ⟨c', hc', fun hstatic => (layout_mem_front hwhole hitems hholds hc' hstatic).imp_left
      fun hmem => ⟨hmem, ?_⟩⟩
    have htext : Code.text [.word "struct", .gap, .word c'.name, .gap, .symbol "\x7b"] =
        "struct " ++ c'.name ++ " \x7b" :=
      String.toList_inj.mp (by simp [Code.toList_text, Lexeme.text])
    have htrimmed : trimmed ("struct " ++ c'.name ++ " \x7b") = "struct " ++ c'.name ++ " \x7b" :=
      String.toList_inj.mp (by simp [trimmed])
    simpa [htext, htrimmed] using hline _ hmem _ (List.mem_cons_of_mem _ List.mem_cons_self)

/-- A class with an array of instances of a class that is listed after it. -/
def Program.nested : Program :=
  ⟨[], [⟨"Outer", .exported, none, none,
        [.field ⟨"parts", .exported, none, .array (.classStorage ⟨1⟩) true (some 2), none⟩], []⟩,
      ⟨"Inner", .exported, none, none, [.field ⟨"size", .exported, none, .int .int, none⟩], []⟩],
    [.classDef ⟨0⟩, .classDef ⟨1⟩], [], .empty⟩

theorem introduced_before_named_nested : Program.nested.findDangling = none ∧
    Program.nested.ListsAll ∧
    ∃ contents before after, (generate "c" Program.nested ⟨⟨"nested"⟩, none⟩).files =
        .ok [⟨⟨"nested.c"⟩, contents⟩] ∧
      contents = before ++ "struct Outer \x7b\n\tInner parts[2];\n\x7d;\n" ++ after ∧
      HasLine before "typedef struct Inner Inner;" ∧ HasLine before "struct Inner \x7b" := by
  have hl : Program.nested.ListsAll := Program.listsAll_of_range (by decide) (by decide)
  obtain ⟨files, hfiles⟩ : ∃ files,
      (generate "c" Program.nested ⟨⟨"nested"⟩, none⟩).files = .ok files := ⟨_, rfl⟩
  obtain ⟨contents, hcontents, -, hitems⟩ :=
    introduced_before_named (d := .standard) rfl hl hfiles
  let outer := Program.nested.classes.get ⟨0, by decide⟩
  let inner := Program.nested.classes.get ⟨1, by decide⟩
  obtain ⟨before, after, hsplit, -, htypes, hlayouts⟩ :=
    hitems [.typedef ⟨0⟩ outer, .typedef ⟨1⟩ inner, .layout ⟨1⟩ inner] (.layout ⟨0⟩ outer) [] rfl
  obtain ⟨c, hc, htypedef⟩ := htypes ⟨1⟩ (List.mem_of_getElem? (i := 2) rfl)
  obtain rfl := Except.ok.inj hc
  obtain ⟨c, hc, hlayout⟩ := hlayouts _ _ rfl _ (List.mem_of_getElem? (i := 0) rfl) ⟨1⟩ rfl
  obtain rfl := Except.ok.inj hc
  have htext : Item.text ⟨.nested, .cFamily .standard, none⟩ .standard (.layout ⟨0⟩ outer) =
      "struct Outer \x7b\n\tInner parts[2];\n\x7d;\n" := by decide +kernel
  rw [htext] at hsplit
  have hinner : ∀ held, ¬Program.nested.Holds ⟨1⟩ held := by
    rintro held ⟨c, hc, hheld⟩
    obtain rfl := Except.ok.inj hc
    simp [ClassDef.heldClasses, ClassDef.fields, Ty.heldClass] at hheld
  have hcircle : ¬TransGen Program.nested.Holds ⟨1⟩ ⟨0⟩ := fun h => by
    obtain ⟨held, hheld, -⟩ := TransGen.head'_iff.mp h
    exact hinner held hheld
  exact ⟨rfl, hl, contents, before, after, hcontents ▸ hfiles, hsplit, htypedef rfl,
    ((hlayout rfl).resolve_right hcircle).2⟩

/-- A class without members, and a class with a reference to its instances. -/
def Program.marked : Program :=
  ⟨[], [⟨"Mark", .exported, none, none, [], []⟩,
      ⟨"Node", .exported, none, none,
        [.field ⟨"mark", .exported, none, .classRef ⟨0⟩, none⟩], []⟩],
    [.classDef ⟨0⟩, .classDef ⟨1⟩], [], .empty⟩

/-- A class with an instance of itself. -/
def Program.circular : Program :=
  ⟨[], [⟨"Node", .exported, none, none,
        [.field ⟨"inner", .exported, none, .classStorage ⟨0⟩, none⟩], []⟩],
    [.classDef ⟨0⟩], [], .empty⟩

theorem HasLine.isInfix {text line : String} (h : HasLine text line) :
    line.toList <:+: text.toList := by
  obtain ⟨before, levels, after, -, rfl⟩ := h
  exact ⟨(before ++ Writer.margin levels).toList, ("\n" ++ after).toList, by simp⟩

/-- A class without members is static: its name is printed as a type, and no line introduces it. A
class that holds itself by value is not laid out in front of itself. -/
theorem not_introduced_before_named :
    (Program.marked.findDangling = none ∧ Program.marked.ListsAll ∧
      ∃ contents, (generate "c" Program.marked ⟨⟨"node"⟩, none⟩).files =
          .ok [⟨⟨"node.c"⟩, contents⟩] ∧
        (∃ item ∈ items ⟨.marked, .cFamily .standard, none⟩ .standard,
          .type ⟨0⟩ ∈ item.names ⟨.marked, .cFamily .standard, none⟩ .standard) ∧
        ¬HasLine contents "typedef struct Mark Mark;") ∧
    (Program.circular.findDangling = none ∧ Program.circular.ListsAll ∧
      ∃ files, (generate "c" Program.circular ⟨⟨"node"⟩, none⟩).files = .ok files ∧
        ∃ front c back, items ⟨.circular, .cFamily .standard, none⟩ .standard =
            front ++ .layout ⟨0⟩ c :: back ∧
          (∃ f ∈ c.fields, f.ty.heldClass = some ⟨0⟩) ∧ ∀ c', .layout ⟨0⟩ c' ∉ front) := by
  have hmarked : Program.marked.ListsAll := Program.listsAll_of_range (by decide) (by decide)
  have hcircular : Program.circular.ListsAll := Program.listsAll_of_range (by decide) (by decide)
  have hnone : ¬"typedef struct Mark Mark;".toList <:+:
      "typedef struct Node Node;\n\nstruct Node \x7b\n\tMark *mark;\n\x7d;\n".toList := by decide
  refine ⟨⟨rfl, hmarked, _, rfl, ?_, fun h => hnone h.isInfix⟩, rfl, hcircular, _, rfl, ?_⟩
  · exact ⟨_, List.mem_of_getElem? (i := 1) rfl, List.mem_of_getElem? (i := 2) rfl⟩
  · let c := Program.circular.classes.get ⟨0, by decide⟩
    exact ⟨[.typedef ⟨0⟩ c], c, [], rfl, ⟨_, List.mem_of_getElem? (i := 0) rfl, rfl⟩,
      fun c' h => by simp at h⟩

end Emitter
