import Emitter.Proofs.Names.Items

/-!
# The assembled C file

A successful run of a C target writes one file, and the file is made of the program's items: their
texts follow each other in order, with nothing but line ends in between.
-/

namespace Emitter

open Layout Program Text

namespace Program

variable {p : Program}

theorem whole_of_findDangling (h : p.findDangling = none) : p.Whole := fun id hid =>
  findDangling_eq_none_iff.mp h id (mem_mentions.mp hid)

theorem eq_filterMap_of_mapM {ε α β : Type} {f : α → Except ε β} {g : α → Option β} {xs : List α}
    {ys : List β} (h : ∀ x y, f x = .ok y → g x = some y) (hm : xs.mapM f = .ok ys) :
    ys = xs.filterMap g := by
  induction xs generalizing ys with
  | nil => exact (Except.ok.inj hm).symm
  | cons x rest ih =>
      rw [List.mapM_cons] at hm
      cases hx : f x with
      | error fault => simp [hx, bind, Except.bind] at hm
      | ok y =>
          cases hrest : rest.mapM f with
          | error fault => simp [hx, hrest, bind, Except.bind] at hm
          | ok others =>
              obtain rfl : y :: others = ys := by
                simpa [hx, hrest, bind, Except.bind, pure, Except.pure] using hm
              rw [List.filterMap_cons_some (h x y hx), ← ih hrest]

theorem globalClasses_eq {entries : List (ClassId × ClassDef)} (h : p.globalClasses = .ok entries) :
    entries = p.shownClasses := by
  refine eq_filterMap_of_mapM (fun id entry hentry => ?_) h
  cases hclass : p.classOf id with
  | error fault => simp [hclass, bind, Except.bind] at hentry
  | ok c =>
      obtain rfl : (id, c) = entry := by
        simpa [hclass, bind, Except.bind, pure, Except.pure] using hentry
      simp [classOf_eq_ok_iff.mp hclass]

theorem globalEnums_eq {entries : List (EnumId × EnumDef)} (h : p.globalEnums = .ok entries) :
    entries.map Prod.snd = p.shownEnums := by
  have hentries : entries =
      p.globalEnumIds.filterMap fun id => (p.enums[id.index.toNat]?).map (id, ·) := by
    refine eq_filterMap_of_mapM (fun id entry hentry => ?_) h
    unfold enumOf at hentry
    cases henum : p.enums[id.index.toNat]? with
    | none => simp [henum, bind, Except.bind] at hentry
    | some e =>
        obtain rfl : (id, e) = entry := by
          simpa [henum, bind, Except.bind, pure, Except.pure] using hentry
        rfl
  simp [hentries, shownEnums, List.map_filterMap, Function.comp_def]

end Program

namespace CFamily

variable {cx : Context} {d : Dialect} {item : Item}

theorem printedClasses_eq {classes : List (ClassDef × Bool)} (h : printedClasses cx = .ok classes) :
    classes = cx.program.shownClasses.map fun entry =>
      (entry.2, cx.program.constructs entry.1) := by
  have h : (cx.program.globalClasses >>= fun entries => entries.mapM fun entry => do
      return (entry.2, ← cx.program.needsConstruction entry.1)) = .ok classes := lookedUp_eq_ok h
  cases hentries : cx.program.globalClasses with
  | error fault => simp [hentries, bind, Except.bind] at h
  | ok entries =>
      rw [hentries] at h
      rw [← Program.globalClasses_eq hentries, ← List.filterMap_eq_map]
      refine Program.eq_filterMap_of_mapM (fun entry y hy => ?_) h
      cases hneeds : cx.program.needsConstruction entry.1 with
      | error fault => simp [hneeds, bind, Except.bind] at hy
      | ok b =>
          obtain rfl : (entry.2, b) = y := by
            simpa [hneeds, bind, Except.bind, pure, Except.pure] using hy
          simp [Program.constructs, hneeds, Except.toOption]

theorem plays_item (item : Item) : (item.emission cx d).Plays := by
  cases item with
  | native text | helper h text => exact Emit.plays_newline.seq (Emit.plays_lines text)
  | header | typedef | constructorPrototype => exact Emit.plays_line _
  | definition | prototype | table => exact Emit.plays_lift _ fun _ _ => Emit.plays_line _
  | enumeration e => exact plays_enumeration e
  | layout id c => exact plays_structLayout c
  | resource name bytes => exact plays_resourceTable name bytes
  | constructor id c => exact plays_constructorBody c
  | method id c m => exact plays_methodBody c m

theorem keeps_item (item : Item) : (item.emission cx d).Keeps := by
  have hlast : ∀ (e : Emit Unit) code, (do e; Emit.line code).Ends := fun e code =>
    Emit.ends_bind fun _ => Emit.ends_line code
  cases item with
  | native text | helper h text => exact Emit.ends_newline.keeps.bind fun _ => Emit.keeps_lines text
  | header | typedef | constructorPrototype => exact (Emit.ends_line _).keeps
  | enumeration e =>
      change (enumeration cx e).Keeps
      unfold enumeration
      split_ifs
      · exact Emit.keeps_note _
      · exact (Emit.keeps_note _).bind fun _ => (Emit.ends_bind fun _ => Emit.ends_bind fun _ =>
          hlast _ _).keeps
  | definition | prototype | table => exact (Emit.ends_bind fun _ => Emit.ends_line _).keeps
  | layout id c =>
      exact (Emit.ends_bind fun _ => Emit.ends_bind fun _ => Emit.ends_bind fun _ =>
        hlast _ _).keeps
  | resource name bytes =>
      exact (Emit.ends_bind fun _ => Emit.ends_bind fun _ => hlast _ _).keeps
  | constructor id c =>
      exact (Emit.ends_bind fun _ => Emit.ends_bind fun _ => Emit.ends_braced _).keeps
  | method id c m =>
      exact (Emit.ends_bind fun _ => Emit.ends_bind fun _ => Emit.ends_bind fun _ =>
        Emit.ends_bind fun _ => Emit.ends_braced _).keeps

end CFamily

/-! The program is gone through several times for one file. Each time the emission is made of items,
and so is what they make up together. -/

namespace Emit

variable {α β : Type} {cx : Context} {d : Dialect} {items more : List CFamily.Item}

/-- An emission that goes through is made of what prints the items. -/
def LaysOut (cx : Context) (d : Dialect) (items : List CFamily.Item) (e : Emit α) : Prop :=
  e.MadeOf (items.map (CFamily.Item.emission cx d))

theorem LaysOut.seq {e : Emit Unit} {next : Emit β} (h : e.LaysOut cx d items)
    (hnext : next.LaysOut cx d more) : (do e; next).LaysOut cx d (items ++ more) := by
  unfold LaysOut
  rw [List.map_append]
  exact MadeOf.seq h hnext

theorem LaysOut.group {e : Emit Unit} (h : e.LaysOut cx d items) : e.group.LaysOut cx d items :=
  MadeOf.group h

theorem LaysOut.of_eq {e : Emit α} (h : e.LaysOut cx d items) (hitems : items = more) :
    e.LaysOut cx d more := hitems ▸ h

theorem laysOut_pure : (pure () : Emit Unit).LaysOut cx d [] := madeOf_pure

theorem laysOut_lift {r : Result α} {next : α → Emit β}
    (h : ∀ a, r = .ok a → (next a).LaysOut cx d items) : (liftM r >>= next).LaysOut cx d items :=
  madeOf_lift h

theorem laysOut_forM {f : α → Emit Unit} {g : α → List CFamily.Item} {xs : List α}
    (h : ∀ x ∈ xs, (f x).LaysOut cx d (g x)) : (xs.forM f).LaysOut cx d (xs.flatMap g) :=
  (madeOf_forM h).of_eq (by simp [List.map_flatMap])

end Emit

namespace CFamily

open Emit

variable {α β : Type} {cx : Context} {d : Dialect} {items more : List Item}

theorem laysOut_item (ht : cx.target = .cFamily d) (item : Item)
    (h : item.Of cx.program) : (item.emission cx d).LaysOut cx d [item] :=
  madeOf_self (plays_item item) (prints_item ht h) (keeps_item item)

/-- One item for each element of a list. -/
theorem laysOut_map (ht : cx.target = .cFamily d) {f : α → Item}
    {xs : List α} (h : ∀ x ∈ xs, (f x).Of cx.program) :
    (xs.forM fun x => (f x).emission cx d).LaysOut cx d (xs.map f) := by
  rw [List.map_eq_flatMap]
  exact laysOut_forM fun x hx => laysOut_item ht (f x) (h x hx)

/-- The classes of the top-level symbols are gone through in order. -/
theorem laysOut_classes {f : ClassDef × Bool → Emit Unit} {g : ClassId × ClassDef → List Item}
    {classes : List (ClassDef × Bool)} (hclasses : printedClasses cx = .ok classes)
    (h : ∀ id c, cx.program.classOf id = .ok c →
      (f (c, cx.program.constructs id)).LaysOut cx d (g (id, c))) :
    (classes.forM f).LaysOut cx d (cx.program.shownClasses.flatMap g) := by
  obtain rfl := printedClasses_eq hclasses
  have hshown : ∀ entry ∈ cx.program.shownClasses,
      (f (entry.2, cx.program.constructs entry.1)).LaysOut cx d (g entry) := fun entry hentry =>
    h entry.1 entry.2 (Program.mem_resolved.mp hentry).2
  have hmap : ∀ entries : List (ClassId × ClassDef),
      (entries.map fun entry => (entry.2, cx.program.constructs entry.1)).forM f =
        entries.forM fun entry => f (entry.2, cx.program.constructs entry.1) := by
    intro entries
    induction entries with
    | nil => rfl
    | cons entry rest ih =>
        change (f _ >>= fun _ => (rest.map _).forM f) = (f _ >>= fun _ => rest.forM _)
        rw [ih]
  rw [hmap]
  exact laysOut_forM hshown

theorem laysOut_bodies (ht : cx.target = .cFamily d) :
    (bodies cx d).LaysOut cx d (bodyItems cx.program) := by
  refine laysOut_lift fun classes hclasses => laysOut_classes hclasses fun id c hc => ?_
  have hmethods :
      (c.methods.forM (methodBody cx d c)).LaysOut cx d (c.methods.map (.method id c)) :=
    laysOut_map ht fun m hm => ⟨hc, hm⟩
  have hconstructor : (constructorBody cx c).LaysOut cx d [.constructor id c] :=
    laysOut_item ht _ hc
  dsimp only
  cases cx.program.constructs id with
  | false => exact laysOut_pure.seq hmethods
  | true => exact hconstructor.seq hmethods

section Groups

variable {classes : List (ClassDef × Bool)} (hclasses : printedClasses cx = .ok classes)

include hclasses

theorem laysOut_definitions (ht : cx.target = .cFamily d) :
    Emit.LaysOut cx d (cx.program.shownClasses.flatMap fun entry =>
        entry.2.consts.map (.definition entry.2))
      (classes.forM fun entry => entry.1.consts.forM (macroLine cx entry.1)) :=
  laysOut_classes hclasses fun _ _ hc => laysOut_map ht fun _ hk =>
    ⟨Program.mem_classes_of_classOf hc, hk⟩

theorem laysOut_typedefs (ht : cx.target = .cFamily d) :
    Emit.LaysOut cx d (cx.program.shownClasses.flatMap fun entry =>
        if entry.2.isStatic then [] else [.typedef entry.1 entry.2])
      (classes.forM fun entry => if entry.1.isStatic then pure () else typedefLine entry.1) := by
  refine laysOut_classes hclasses fun id c hc => ?_
  dsimp only
  split_ifs
  · exact laysOut_pure
  · exact laysOut_item ht (.typedef id c) hc

theorem laysOut_prototypes (ht : cx.target = .cFamily d) :
    Emit.LaysOut cx d (cx.program.shownClasses.flatMap fun entry =>
        (if cx.program.constructs entry.1 then [Item.constructorPrototype entry.1 entry.2]
          else []) ++
          entry.2.methods.map (Item.prototype entry.1 entry.2))
      (classes.forM fun entry => prototypes cx d entry.1 entry.2) := by
  refine laysOut_classes hclasses fun id c hc => ?_
  have hmethods := laysOut_map (d := d) ht (f := .prototype id c) fun m (hm : m ∈ c.methods) =>
    ⟨hc, hm⟩
  dsimp only
  cases cx.program.constructs id with
  | false => exact laysOut_pure.seq hmethods
  | true => exact LaysOut.seq (laysOut_item ht (.constructorPrototype id c) hc) hmethods

theorem laysOut_tables (ht : cx.target = .cFamily d) :
    Emit.LaysOut cx d (cx.program.shownClasses.flatMap fun entry =>
        entry.2.constArrays.map (.table entry.2))
      (classes.forM fun entry => entry.1.constArrays.forM fun k => do
        Emit.line (← (constTable cx d entry.1 k : Result Code))) :=
  laysOut_classes hclasses fun _ _ hc => laysOut_map ht fun _ hk =>
    ⟨Program.mem_classes_of_classOf hc, hk⟩

end Groups

theorem laysOut_layouts (ht : cx.target = .cFamily d)
    {order : List ClassId} (horder : lookedUp cx.program.layoutOrder = .ok order) :
    Emit.LaysOut cx d (cx.program.laidOut.map fun entry => .layout entry.1 entry.2)
      (order.forM fun id => do structLayout cx d (← (cx.classOf id : Result ClassDef))) := by
  have horder := lookedUp_eq_ok horder
  have hone : ∀ id ∈ order, Emit.LaysOut cx d
      ((cx.program.classes[id.index.toNat]?).map fun c => Item.layout id c).toList
      (do structLayout cx d (← (cx.classOf id : Result ClassDef))) := by
    intro id _
    refine laysOut_lift fun c hc => ?_
    have hclass : cx.program.classes[id.index.toNat]? = some c := Context.classOf_eq_ok hc
    rw [hclass]
    exact laysOut_item ht (.layout id c) (Program.classOf_eq_ok_iff.mpr hclass)
  refine (laysOut_forM hone).of_eq ?_
  rw [Program.laidOut, horder, Program.resolved, List.map_filterMap,
    List.filterMap_eq_flatMap_toList]
  simp [Except.toOption, Function.comp_def]

theorem laysOut_declarations (ht : cx.target = .cFamily d) :
    (declarations cx d).LaysOut cx d (declarationItems cx.program) := by
  have hnatives : (cx.program.natives.forM native).LaysOut cx d
      (cx.program.natives.map .native) :=
    laysOut_map ht fun _ _ => trivial
  have henums : ∀ enums, lookedUp cx.program.globalEnums = .ok enums →
      Emit.LaysOut cx d (cx.program.shownEnums.map .enumeration)
        (enums.forM fun entry => enumeration cx entry.2) := by
    intro enums henums
    rw [← Program.globalEnums_eq (lookedUp_eq_ok henums), List.map_map]
    exact laysOut_map ht (f := fun entry : EnumId × EnumDef => .enumeration entry.2)
      fun _ _ => trivial
  have hresources : Emit.LaysOut cx d
      (cx.program.resources.entries.map fun entry => .resource entry.1 entry.2)
      (cx.program.resources.entries.forM fun entry => resourceTable d entry.1 entry.2) :=
    laysOut_map ht fun _ _ => trivial
  have hall : (declarations cx d).LaysOut cx d _ :=
    hnatives.seq <| laysOut_lift fun enums hfound => (henums enums hfound).seq <|
      laysOut_lift fun classes hclasses =>
        (laysOut_definitions hclasses ht).group.seq <|
          (laysOut_typedefs hclasses ht).group.seq <|
            (laysOut_prototypes hclasses ht).group.seq <|
              laysOut_lift fun order horder => (laysOut_layouts ht horder).seq <|
                hresources.seq (laysOut_tables hclasses ht).group
  exact hall.of_eq (by simp [declarationItems])

theorem of_bodyItems {item : Item} (h : item ∈ bodyItems cx.program) : item.Of cx.program := by
  obtain ⟨entry, hentry, hitem⟩ := List.mem_flatMap.mp h
  have hc := (Program.mem_resolved.mp hentry).2
  rcases List.mem_append.mp hitem with hitem | hitem
  · split_ifs at hitem with hneeds
    · obtain rfl := List.mem_singleton.mp hitem
      exact hc
    · simp at hitem
  · obtain ⟨m, hm, rfl⟩ := List.mem_map.mp hitem
    exact ⟨hc, hm⟩

theorem of_declarationItems {item : Item} (h : item ∈ declarationItems cx.program) :
    item.Of cx.program := by
  have hshown : ∀ {entry}, entry ∈ cx.program.shownClasses →
      cx.program.classOf entry.1 = .ok entry.2 := fun hentry => (Program.mem_resolved.mp hentry).2
  simp only [declarationItems, List.mem_append, List.mem_map, List.mem_flatMap] at h
  rcases h with ((((((⟨text, -, rfl⟩ | ⟨e, -, rfl⟩) | ⟨entry, hentry, k, hk, rfl⟩) |
    ⟨entry, hentry, hitem⟩) | ⟨entry, hentry, hitem | ⟨m, hm, rfl⟩⟩) | ⟨entry, hentry, rfl⟩) |
      ⟨entry, -, rfl⟩) | ⟨entry, hentry, k, hk, rfl⟩
  · trivial
  · trivial
  · exact ⟨Program.mem_classes_of_classOf (hshown hentry), hk⟩
  · split_ifs at hitem
    · simp at hitem
    · obtain rfl := List.mem_singleton.mp hitem
      exact hshown hentry
  · split_ifs at hitem
    · obtain rfl := List.mem_singleton.mp hitem
      exact hshown hentry
    · simp at hitem
  · exact ⟨hshown hentry, hm⟩
  · exact (Program.mem_resolved.mp hentry).2
  · trivial
  · exact ⟨Program.mem_classes_of_classOf (hshown hentry), hk⟩

theorem of_headerItems {item : Item} (h : item ∈ headerItems cx d) : item.Of cx.program := by
  cases d with
  | openCL => simp [headerItems] at h
  | standard =>
      obtain ⟨header, -, rfl⟩ := List.mem_map.mp h
      trivial

theorem of_helperItems {item : Item} (h : item ∈ helperItems cx d) : item.Of cx.program := by
  cases d with
  | standard => simp [helperItems] at h
  | openCL =>
      obtain ⟨entry, -, rfl⟩ := List.mem_map.mp h
      trivial

/-- What supplies the names in the items supplies those in the emission. -/
theorem mem_suppliers_of_laysOut (ht : cx.target = .cFamily d) {e : Emit Unit}
    (h : e.LaysOut cx d items) (hof : ∀ item ∈ items, item.Of cx.program) (hok : e.outcome = .ok ())
    {s : Supplier} :
    s ∈ e.suppliers ↔ s ∈ (items.flatMap (Item.names cx d)).filterMap PrintedName.supplier? := by
  obtain ⟨hall, hnames, -⟩ := h () hok
  have hlists : cx.Lists (items.flatMap (Item.names cx d))
      (items.flatMap fun item => Step.names (item.emission cx d).steps) :=
    Context.lists_flatMap fun item hmem => (prints_item ht (hof item hmem) _ () (by
      rw [← hall _ (List.mem_map_of_mem hmem)])).2
  rw [mem_suppliers, hnames, List.flatMap_map]
  exact hlists.exists_supplied

theorem laysOut_includes (ht : cx.target = .cFamily d)
    {used : List Supplier} (hused : ∀ s, s ∈ used ↔ s ∈ supplied cx d) :
    (includes d used).LaysOut cx d (headerItems cx d) := by
  cases d with
  | openCL => exact laysOut_pure
  | standard =>
      simp only [includes, headerItems, hused]
      exact laysOut_map ht fun _ _ => trivial

theorem laysOut_library (ht : cx.target = .cFamily d)
    {used : List Supplier} (hused : ∀ s, s ∈ used ↔ s ∈ supplied cx d) :
    (library d used).LaysOut cx d (helperItems cx d) := by
  cases d with
  | standard => exact laysOut_pure
  | openCL =>
      refine LaysOut.of_eq (laysOut_forM (g := fun entry : Helper × String =>
        if .helper entry.1 ∈ supplied cx .openCL then [Item.helper entry.1 entry.2] else []) ?_) ?_
      · intro entry _
        simp only [hused]
        split_ifs
        · exact laysOut_item ht (.helper entry.1 entry.2) trivial
        · exact laysOut_pure
      · simp only [helperItems, List.flatMap_cons, List.flatMap_nil, List.filter_cons,
          List.filter_nil, decide_eq_true_eq]
        split_ifs <;> rfl

end CFamily

namespace Run

variable {α β : Type} {e : Emit Unit} {d d' : Desk}

/-- A section that goes through has the text of its parts, and the writer is back where it was. -/
theorem sectionText_eq_ok {parts : List (Emit Unit)} {text : String} (hparts : e.MadeOf parts)
    (hindent : d.writer.indent = 0) (h : (sectionText e).run.run d = (.ok text, d')) :
    e.outcome = .ok () ∧ d'.writer = d.writer ∧
      Spread (parts.map fun part => trimmed part.text) text := by
  obtain ⟨⟨⟩, d₁, hbegin, h⟩ := bind_eq_ok.mp h
  obtain ⟨⟨⟩, d₂, hperform, h⟩ := bind_eq_ok.mp h
  obtain ⟨hplay, hok⟩ := perform_eq_ok.mp hperform
  obtain ⟨-, -, text', hprints, hspread⟩ := hparts () hok
  obtain rfl : ({ d with writer := d.writer.beginSection } : Desk) = d₁ := congrArg Prod.snd hbegin
  obtain ⟨notices, hplay'⟩ := hprints.plays d.writer.beginSection d.notices ⟨hindent, rfl⟩
  obtain rfl : _ = d₂ := Option.some.inj (hplay'.symm.trans hplay)
  obtain ⟨htext, hd⟩ := Prod.mk.inj h
  obtain rfl : text' = text := by
    simpa [Writer.further, Writer.beginSection] using Except.ok.inj htext
  refine ⟨hok, ?_, hspread⟩
  rw [← hd]
  simp [Writer.further, Writer.beginSection, ← hindent]

end Run

namespace CFamily

variable {cx : Context} {d : Dialect}

theorem trimmed_text (item : Item) : trimmed (item.text cx d) = item.text cx d :=
  trimmed_trimmed _

/-- The line ends in front of a section are none of its items'. -/
theorem trimItems {items : List Item} {section_ : String}
    (h : Spread ((items.map (Item.emission cx d)).map fun part => trimmed part.text) section_) :
    Spread (items.map (Item.text cx d)) (trimmed section_) := by
  rw [List.map_map] at h
  refine Spread.trim h fun text htext => ?_
  obtain ⟨item, -, rfl⟩ := List.mem_map.mp htext
  exact trimmed_text item

/-- A run that goes through writes one file, made of the items. -/
theorem assemble_eq_ok (ht : cx.target = .cFamily d) {path : Path}
    {desk : Desk} (h : (assemble cx d path).run.run ⟨.new, []⟩ = (.ok (), desk)) :
    ∃ contents, desk.writer.files = [⟨path, contents⟩] ∧
      Spread ((items cx d).map (Item.text cx d)) contents ∧
        ∀ item ∈ items cx d, item.Of cx.program ∧ (item.emission cx d).outcome = .ok () := by
  obtain ⟨bodyText, d₁, hbody, h⟩ := Run.bind_eq_ok.mp h
  obtain ⟨declarationText, d₂, hdeclaration, h⟩ := Run.bind_eq_ok.mp h
  obtain ⟨libraryText, d₃, hlibrary, h⟩ := Run.bind_eq_ok.mp h
  obtain ⟨includeText, d₄, hinclude, h⟩ := Run.bind_eq_ok.mp h
  obtain ⟨⟨⟩, d₅, hopen, h⟩ := Run.bind_eq_ok.mp h
  obtain ⟨⟨⟩, d₆, hwrite, hclose⟩ := Run.bind_eq_ok.mp h
  obtain ⟨hbodyOk, hd₁, hbodySpread⟩ :=
    Run.sectionText_eq_ok (laysOut_bodies ht) rfl hbody
  obtain ⟨hdeclarationOk, hd₂, hdeclarationSpread⟩ :=
    Run.sectionText_eq_ok (laysOut_declarations ht) (by rw [hd₁]; rfl) hdeclaration
  have hused : ∀ s, s ∈ (bodies cx d).suppliers ++ (declarations cx d).suppliers ↔
      s ∈ supplied cx d := by
    intro s
    rw [List.mem_append, mem_suppliers_of_laysOut ht (laysOut_bodies ht)
        (fun _ => of_bodyItems) hbodyOk,
      mem_suppliers_of_laysOut ht (laysOut_declarations ht) (fun _ => of_declarationItems)
        hdeclarationOk]
    simp only [supplied, List.flatMap_append, List.filterMap_append, List.mem_append]
  have hlibraryItems := laysOut_library ht hused
  have hincludeItems := laysOut_includes ht hused
  obtain ⟨hlibraryOk, hd₃, hlibrarySpread⟩ :=
    Run.sectionText_eq_ok hlibraryItems (by rw [hd₂, hd₁]; rfl) hlibrary
  obtain ⟨hincludeOk, hd₄, hincludeSpread⟩ :=
    Run.sectionText_eq_ok hincludeItems (by rw [hd₃, hd₂, hd₁]; rfl) hinclude
  obtain ⟨hopen, -⟩ := Run.perform_eq_ok.mp hopen
  obtain ⟨hclose, -⟩ := Run.perform_eq_ok.mp hclose
  refine ⟨joinSegments [includeText, declarationText, libraryText, bodyText], ?_, ?_, ?_⟩
  · have hwriter : d₄.writer = .new := by rw [hd₄, hd₃, hd₂, hd₁]
    obtain ⟨w, notices⟩ := d₄
    obtain rfl : w = .new := hwriter
    obtain rfl : _ = d₅ := Option.some.inj hopen
    obtain rfl : _ = d₆ := congrArg Prod.snd hwrite
    obtain rfl : _ = desk := Option.some.inj hclose
    have hfiles : ([⟨path, "" ++ joinSegments [includeText, declarationText, libraryText,
        bodyText]⟩] : List OutputFile) = [⟨path, joinSegments [includeText, declarationText,
          libraryText, bodyText]⟩] := by rw [String.empty_append]
    exact hfiles
  · have hsections := Spread.intercalate (.cons (trimItems hincludeSpread) (.cons
      (trimItems hdeclarationSpread) (.cons (trimItems hlibrarySpread) (.cons
        (trimItems hbodySpread) .nil))))
    have hjoin : joinSegments [includeText, declarationText, libraryText, bodyText] =
        "\n".intercalate ([trimmed includeText, trimmed declarationText, trimmed libraryText,
          trimmed bodyText].filter (· ≠ "")) := rfl
    rw [hjoin]
    simpa [items] using hsections
  · intro item hitem
    have hdone : ∀ {e : Emit Unit} {items : List Item}, e.LaysOut cx d items → e.outcome = .ok () →
        ∀ item ∈ items, (item.emission cx d).outcome = .ok () := fun h hok item hitem =>
      (h () hok).1 _ (List.mem_map_of_mem hitem)
    simp only [items, List.mem_append] at hitem
    rcases hitem with ((hitem | hitem) | hitem) | hitem
    · exact ⟨of_headerItems hitem, hdone hincludeItems hincludeOk item hitem⟩
    · exact ⟨of_declarationItems hitem,
        hdone (laysOut_declarations ht) hdeclarationOk item hitem⟩
    · exact ⟨of_helperItems hitem, hdone hlibraryItems hlibraryOk item hitem⟩
    · exact ⟨of_bodyItems hitem, hdone (laysOut_bodies ht) hbodyOk item hitem⟩

/-- A successful run of a C target leaves one file, made of the items. -/
theorem generate_eq_ok {p : Program} {o : Options} {files : List OutputFile}
    (h : (generate (Target.cFamily d).name p o).files = .ok files) :
    ∃ contents, files = [⟨outputPath (.cFamily d) o.output, contents⟩] ∧
      Spread ((items ⟨p, .cFamily d, none⟩ d).map (Item.text ⟨p, .cFamily d, none⟩ d)) contents ∧
        ∀ item ∈ items ⟨p, .cFamily d, none⟩ d, item.Of p ∧
          (item.emission ⟨p, .cFamily d, none⟩ d).outcome = .ok () := by
  have hname : Backend.ofName? (Target.cFamily d).name = .ok ⟨.cFamily d, .new⟩ := by
    cases d <;> rfl
  simp only [generate, hname, Backend.run, Backend.emission] at h
  rcases hrun : (assemble ⟨p, .cFamily d, none⟩ d (outputPath (.cFamily d) o.output)).run.run
    ⟨.new, []⟩ with ⟨fault | ⟨⟩, desk⟩
  · simp [hrun] at h
  · rw [hrun] at h
    obtain ⟨contents, hfiles, hspread, hitems⟩ := assemble_eq_ok rfl hrun
    exact ⟨contents, by rw [← Except.ok.inj h]; exact hfiles, hspread, hitems⟩

end CFamily

end Emitter
