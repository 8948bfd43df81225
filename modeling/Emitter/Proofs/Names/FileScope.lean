import Emitter.Proofs.Names.Casing
import Emitter.Proofs.Names.Declared
import Emitter.Proofs.Whole.FileNames
import Mathlib.Data.List.Nodup
import Mathlib.Data.List.Perm.Basic

/-!
# Identifiers at file scope

A C file defines enumerators, macros, functions, tables and resources side by side. Each of their
identifiers is the name of an owner, an underscore and a part. They are distinct exactly if every
owner has distinct parts and no two owners put the same identifier together.
-/

namespace Emitter

open Layout Program Text

namespace CFamily

/-- Two names joined by an underscore are the same text as two others only if they are the same
names, or if the front name of the one goes on into the back name of the other. -/
theorem joined_eq_iff {a b x y : String} : a ++ "_" ++ x = b ++ "_" ++ y ↔ (a = b ∧ x = y) ∨
    (∃ rest, b = a ++ "_" ++ rest ∧ x = rest ++ "_" ++ y) ∨
      ∃ rest, a = b ++ "_" ++ rest ∧ y = rest ++ "_" ++ x := by
  refine ⟨fun h => ?_, ?_⟩
  · have hlist : a.toList ++ '_' :: x.toList = b.toList ++ '_' :: y.toList := by
      simpa using congrArg String.toList h
    have hrest : ∀ {a b x y : String} {cs : List Char}, b.toList = a.toList ++ cs →
        '_' :: x.toList = cs ++ '_' :: y.toList → (a = b ∧ x = y) ∨
          ∃ rest, b = a ++ "_" ++ rest ∧ x = rest ++ "_" ++ y := by
      intro a b x y cs hname hpart
      cases cs with
      | nil =>
          refine .inl ⟨String.toList_inj.mp (by simpa using hname.symm), ?_⟩
          exact String.toList_inj.mp (by simpa using hpart)
      | cons c cs =>
          obtain ⟨rfl, hpart⟩ := List.cons.inj hpart
          exact .inr ⟨String.ofList cs, String.toList_inj.mp (by simpa using hname),
            String.toList_inj.mp (by simpa using hpart)⟩
    rcases List.append_eq_append_iff.mp hlist with ⟨cs, hname, hpart⟩ | ⟨cs, hname, hpart⟩
    · exact (hrest hname hpart).imp_right .inl
    · exact (hrest hname hpart).imp (fun h => ⟨h.1.symm, h.2.symm⟩) .inr
  · rintro (⟨rfl, rfl⟩ | ⟨rest, rfl, rfl⟩ | ⟨rest, rfl, rfl⟩)
    · rfl
    · simp only [String.append_assoc]
    · simp only [String.append_assoc]

/-- What identifiers at file scope belong to: the name they begin with and what follows it. -/
structure Owner where
  name : String
  parts : List String

namespace Owner

def identifiers (o : Owner) : List String := o.parts.map fun part => o.name ++ "_" ++ part

/-- The name of `b` goes on behind that of `a` so that an identifier of `b` is one of `a`. -/
def Reaches (a b : Owner) : Prop :=
  ∃ rest, b.name = a.name ++ "_" ++ rest ∧ ∃ part ∈ b.parts, rest ++ "_" ++ part ∈ a.parts

variable {a b o : Owner}

theorem nodup_identifiers_iff : o.identifiers.Nodup ↔ o.parts.Nodup := by
  refine List.nodup_map_iff fun x y h => ?_
  have hparts := congrArg String.toList h
  simpa [String.toList_inj] using hparts

theorem disjoint_identifiers_iff : a.identifiers.Disjoint b.identifiers ↔
    (a.name = b.name → a.parts.Disjoint b.parts) ∧ ¬a.Reaches b ∧ ¬b.Reaches a := by
  constructor
  · intro h
    have hapart : ∀ x ∈ a.parts, ∀ y ∈ b.parts, a.name ++ "_" ++ x ≠ b.name ++ "_" ++ y := by
      intro x hx y hy heq
      exact h (List.mem_map_of_mem hx) (heq ▸ List.mem_map_of_mem hy)
    refine ⟨fun hname x hx hy => hapart x hx x hy (by rw [hname]), ?_, ?_⟩
    · rintro ⟨rest, hname, y, hy, hx⟩
      exact hapart _ hx y hy (joined_eq_iff.mpr (.inr (.inl ⟨rest, hname, rfl⟩)))
    · rintro ⟨rest, hname, x, hx, hy⟩
      exact hapart x hx _ hy (joined_eq_iff.mpr (.inr (.inr ⟨rest, hname, rfl⟩)))
  · rintro ⟨hsame, hleft, hright⟩ identifier ha hb
    obtain ⟨x, hx, rfl⟩ := List.mem_map.mp ha
    obtain ⟨y, hy, heq⟩ := List.mem_map.mp hb
    rcases joined_eq_iff.mp heq.symm with ⟨hname, rfl⟩ | ⟨rest, hname, rfl⟩ | ⟨rest, hname, rfl⟩
    · exact hsame hname hx hy
    · exact hleft ⟨rest, hname, y, hy, hx⟩
    · exact hright ⟨rest, hname, x, hx, hy⟩

/-- No name goes on behind itself. -/
theorem not_reaches_self (o : Owner) : ¬o.Reaches o := by
  rintro ⟨rest, hname, -⟩
  have hlength := congrArg (fun s => s.toList.length) hname
  simp at hlength

/-- A name without underscores goes on behind no other. -/
theorem not_reaches_of_notMem (h : '_' ∉ b.name.toList) : ¬a.Reaches b := by
  rintro ⟨rest, hname, -⟩
  exact h (by simp [hname])

end Owner

end CFamily

namespace Program

open CFamily

/-- The constants and tables of a class, as they are spelled in identifiers. -/
def ClassDef.constantParts (c : ClassDef) : List String :=
  (c.consts ++ c.constArrays).map fun k => upperSnakeCase k.emittedName

def ClassDef.methodParts (c : ClassDef) : List String := c.methods.map (·.name)

def EnumDef.valueParts (e : EnumDef) : List String :=
  e.values.map fun value => upperSnakeCase value.name

/-- A resource's name with an underscore for every character that no identifier may hold. -/
def resourcePart (name : String) : String :=
  String.ofList (name.toList.map fun c => if c.isAlphanum then c else '_')

def resourceParts (p : Program) : List String := p.resources.entries.map fun r => resourcePart r.1

/-- The enumerations and classes that are printed, as owners of identifiers. -/
def symbolOwners (p : Program) : List Owner :=
  p.shownEnums.map (fun e => ⟨e.name, e.valueParts⟩) ++
    p.shownClasses.map fun (id, c) => ⟨c.name, c.constantParts ++
      ((if p.constructs id then ["Construct"] else []) ++ c.methodParts)⟩

/-- What identifiers in the printed file belong to. -/
def owners (p : Program) : List Owner := p.symbolOwners ++ [⟨"CiResource", p.resourceParts⟩]

def Member.name : Member → String
  | field f => f.name
  | const k => k.name
  | method m => m.name

/-- The values of each enumeration have distinct names, and so have the members of each class. -/
structure DistinctMembers (p : Program) : Prop where
  values : ∀ e ∈ p.enums, (e.values.map (·.name)).Nodup
  members : ∀ c ∈ p.classes, (c.members.map (·.name) ++ c.constArrays.map (·.name)).Nodup

/-- As they are spelled, names stay apart wherever they become identifiers of one file. -/
structure SpelledApart (p : Program) : Prop where
  values : ∀ e ∈ p.shownEnums, e.valueParts.Nodup
  constants : ∀ entry ∈ p.shownClasses, entry.2.constantParts.Nodup
  methods : ∀ entry ∈ p.shownClasses, entry.2.constantParts.Disjoint entry.2.methodParts
  construct : ∀ entry ∈ p.shownClasses, p.constructs entry.1 = true →
    "Construct" ∉ entry.2.methodParts
  resources : p.resourceParts.Nodup
  ofResources : ∀ o ∈ p.symbolOwners, o.name = "CiResource" → o.parts.Disjoint p.resourceParts
  owners : ∀ a ∈ p.owners, ∀ b ∈ p.owners, ¬a.Reaches b

variable {p : Program}

theorem DistinctMembers.methods (h : p.DistinctMembers) {c : ClassDef} (hc : c ∈ p.classes) :
    c.methodParts.Nodup := by
  have hmembers := (List.nodup_append.mp (h.members c hc)).1
  refine hmembers.sublist ?_
  unfold ClassDef.methodParts ClassDef.methods
  induction c.members with
  | nil => exact .slnil
  | cons m rest ih =>
      cases m with
      | field | const => exact ih.cons _
      | method => exact ih.cons_cons _

theorem shownEnums_map_name (p : Program) : p.shownEnums.map (·.name) =
    p.globalEnumIds.filterMap fun id => p.symbolName? (.enumeration id) := by
  simp [shownEnums, symbolName?, List.map_filterMap]

theorem shownClasses_map_name (p : Program) : p.shownClasses.map (·.2.name) =
    p.globalClassIds.filterMap fun id => p.symbolName? (.classDef id) := by
  simp only [shownClasses, resolved, symbolName?, List.map_filterMap, Option.map_map]
  rfl

/-- No two enumerations and classes that are printed have one name. -/
theorem DistinctSymbols.nodup_owners (h : p.DistinctSymbols) :
    (p.symbolOwners.map (·.name)).Nodup := by
  have henums : p.globalEnumIds.Nodup := h.globals.filterMap fun id id' i hid hid' => by
    cases id <;> cases id' <;> simp_all
  have hclasses : p.globalClassIds.Nodup := h.globals.filterMap fun id id' i hid hid' => by
    cases id <;> cases id' <;> simp_all
  have hnames : p.symbolOwners.map (·.name) =
      p.shownEnums.map (·.name) ++ p.shownClasses.map (·.2.name) := by
    simp [symbolOwners, Function.comp_def]
  rw [hnames, shownEnums_map_name, shownClasses_map_name]
  refine List.nodup_append.mpr ⟨?_, ?_, ?_⟩
  · exact henums.filterMap fun id id' _ hid hid' => by
      simpa using h.symbolName?_inj hid hid'
  · exact hclasses.filterMap fun id id' _ hid hid' => by
      simpa using h.symbolName?_inj hid hid'
  · intro name hname name' hname' heq
    obtain ⟨id, -, hid⟩ := List.mem_filterMap.mp hname
    obtain ⟨id', -, hid'⟩ := List.mem_filterMap.mp hname'
    have hsame := h.symbolName?_inj hid (heq ▸ hid')
    simp at hsame

end Program

namespace Text

/-- Nothing is spelled like the function that constructs instances. -/
theorem upperSnakeCase_ne_construct (name : String) : upperSnakeCase name ≠ "Construct" := by
  intro h
  have hmem : 'o' ∈ (upperSnakeCase name).toList := by
    rw [h]
    decide
  exact absurd (isLower_of_mem_upperSnakeCase hmem) (by decide)

end Text

/-! Prototypes and structures define no identifier of this kind. Every other item is spelled for one
owner, which is how identifiers are told apart. -/

namespace CFamily

/-- The identifiers that an item defines. Prototypes and names of structures define none. -/
def Item.defined : Item → List String
  | enumeration e => e.values.map fun value => e.name ++ "_" ++ upperSnakeCase value.name
  | definition c k | table c k => [constName c k.emittedName]
  | resource name _ => [resourceName name]
  | helper h _ => [h.name]
  | constructor _ c => [constructName c.name]
  | method _ c m => [functionName c.name m.name]
  | _ => []

/-- The identifiers that the printed file defines at file scope. -/
def fileScope (cx : Context) (d : Dialect) : List String := (items cx d).flatMap Item.defined

variable {cx : Context} {d : Dialect} {p : Program}

theorem Owner.identifiers_append (name : String) (first rest : List String) :
    identifiers ⟨name, first ++ rest⟩ = identifiers ⟨name, first⟩ ++ identifiers ⟨name, rest⟩ :=
  List.map_append

theorem defined_headerItems : (headerItems cx d).flatMap Item.defined = [] := by
  cases d with
  | standard => simp [headerItems, List.flatMap_map, Item.defined]
  | openCL => rfl

theorem defined_declarationItems : (declarationItems p).flatMap Item.defined =
    p.shownEnums.flatMap (fun e => Owner.identifiers ⟨e.name, e.valueParts⟩) ++
      (p.shownClasses.flatMap (fun (_, c) => c.consts.map fun k => constName c k.emittedName) ++
        (Owner.identifiers ⟨"CiResource", p.resourceParts⟩ ++ p.shownClasses.flatMap
          fun (_, c) => c.constArrays.map fun k => constName c k.emittedName)) := by
  have hnone : ∀ {α : Type} (xs : List α) (f : α → List Item),
      (∀ x, ∀ item ∈ f x, item.defined = []) → (xs.flatMap f).flatMap Item.defined = [] := by
    intro α xs f hf
    rw [List.flatMap_assoc, List.flatMap_eq_nil_iff]
    exact fun x _ => List.flatMap_eq_nil_iff.mpr (hf x)
  have hone : ∀ {α β : Type} (xs : List α) (g : α → List β) (f : α → β → Item)
      (name : α → β → String), (∀ x y, (f x y).defined = [name x y]) →
        (xs.flatMap fun x => (g x).map (f x)).flatMap Item.defined =
          xs.flatMap fun x => (g x).map (name x) := by
    intro α β xs g f name hname
    rw [List.flatMap_assoc]
    refine congrArg (xs.flatMap ·) (funext fun x => ?_)
    rw [List.flatMap_map, List.map_eq_flatMap]
    simp only [hname]
  have hnatives : (p.natives.map Item.native).flatMap Item.defined = [] := by
    simp [List.flatMap_map, Item.defined]
  have henums : (p.shownEnums.map Item.enumeration).flatMap Item.defined =
      p.shownEnums.flatMap fun e => Owner.identifiers ⟨e.name, e.valueParts⟩ := by
    simp [List.flatMap_map, Item.defined, Owner.identifiers, EnumDef.valueParts, Function.comp_def]
  have hdefinitions := hone p.shownClasses (fun entry => entry.2.consts)
    (fun entry => .definition entry.2) (fun entry k => constName entry.2 k.emittedName)
      fun _ _ => rfl
  have htypedefs := hnone p.shownClasses
    (fun entry => if entry.2.isStatic then [] else [.typedef entry.1 entry.2])
    fun entry item hitem => by
      split_ifs at hitem
      · cases hitem
      · obtain rfl := List.mem_singleton.mp hitem
        rfl
  have hprototypes := hnone p.shownClasses
    (fun entry =>
      (if p.constructs entry.1 then [Item.constructorPrototype entry.1 entry.2] else []) ++
      entry.2.methods.map (Item.prototype entry.1 entry.2)) fun entry item hitem => by
      rcases List.mem_append.mp hitem with hitem | hitem
      · split_ifs at hitem
        · obtain rfl := List.mem_singleton.mp hitem
          rfl
        · cases hitem
      · obtain ⟨m, -, rfl⟩ := List.mem_map.mp hitem
        rfl
  have hlayouts : (p.laidOut.map fun entry => Item.layout entry.1 entry.2).flatMap
      Item.defined = [] := by
    simp [List.flatMap_map, Item.defined]
  have hresources : (p.resources.entries.map fun entry =>
      Item.resource entry.1 entry.2).flatMap Item.defined =
        Owner.identifiers ⟨"CiResource", p.resourceParts⟩ := by
    rw [List.flatMap_map, Owner.identifiers, Program.resourceParts, List.map_map,
      List.map_eq_flatMap]
    rfl
  have htables := hone p.shownClasses (fun entry => entry.2.constArrays)
    (fun entry => .table entry.2) (fun entry k => constName entry.2 k.emittedName) fun _ _ => rfl
  simp only [declarationItems, List.flatMap_append, hnatives, henums, hdefinitions, htypedefs,
    hprototypes, hlayouts, hresources, htables, List.nil_append, List.append_assoc]

theorem defined_bodyItems : (bodyItems p).flatMap Item.defined =
    p.shownClasses.flatMap fun (id, c) => Owner.identifiers
      ⟨c.name, (if p.constructs id then ["Construct"] else []) ++ c.methodParts⟩ := by
  unfold bodyItems
  rw [List.flatMap_assoc]
  refine congrArg (p.shownClasses.flatMap ·) (funext fun entry => ?_)
  obtain ⟨id, c⟩ := entry
  dsimp only
  rw [List.flatMap_append, Owner.identifiers_append]
  congr 1
  · split_ifs <;> rfl
  · rw [List.flatMap_map, Owner.identifiers, ClassDef.methodParts, List.map_map,
      List.map_eq_flatMap]
    rfl

/-- The helpers are functions whose names have no owner. -/
theorem defined_helperItems (cx : Context) (d : Dialect) :
    ((helperItems cx d).flatMap Item.defined).Sublist ["streq", "strlen"] := by
  cases d with
  | standard => exact List.nil_sublist _
  | openCL =>
      have hnames : (helperItems cx .openCL).flatMap Item.defined =
          ([(Helper.stringEquality, streqText), (.stringLength, strlenText)].filter fun entry =>
            .helper entry.1 ∈ supplied cx .openCL).map fun entry => entry.1.name := by
        rw [helperItems, List.flatMap_map, List.map_eq_flatMap]
        rfl
      rw [hnames]
      exact List.filter_sublist.map fun entry : Helper × String => entry.1.name

/-- Owner by owner, these are the identifiers of the file. -/
theorem perm_fileScope (cx : Context) (d : Dialect) : (fileScope cx d).Perm
    (cx.program.owners.flatMap Owner.identifiers ++ (helperItems cx d).flatMap Item.defined) := by
  have hsymbols : cx.program.owners.flatMap Owner.identifiers =
      cx.program.shownEnums.flatMap (fun e => Owner.identifiers ⟨e.name, e.valueParts⟩) ++
        (cx.program.shownClasses.flatMap (fun (id, c) =>
          c.consts.map (fun k => constName c k.emittedName) ++
            (c.constArrays.map (fun k => constName c k.emittedName) ++ Owner.identifiers
              ⟨c.name, (if cx.program.constructs id then ["Construct"] else []) ++
                c.methodParts⟩)) ++
          Owner.identifiers ⟨"CiResource", cx.program.resourceParts⟩) := by
    simp only [Program.owners, Program.symbolOwners, List.flatMap_append, List.flatMap_map,
      List.flatMap_singleton, List.append_assoc, Owner.identifiers_append]
    simp [Owner.identifiers, ClassDef.constantParts, constName, Function.comp_def]
  -- The macros, the tables and the functions of a class stand in three places of the file.
  refine List.perm_iff_count.mpr fun name => ?_
  have hfirst := (List.flatMap_append_perm cx.program.shownClasses
    (fun (_, c) => c.consts.map fun k => constName c k.emittedName)
    fun (id, c) => c.constArrays.map (fun k => constName c k.emittedName) ++ Owner.identifiers
      ⟨c.name, (if cx.program.constructs id then ["Construct"] else []) ++ c.methodParts⟩).count_eq
        name
  have hsecond := (List.flatMap_append_perm cx.program.shownClasses
    (fun (_, c) => c.constArrays.map fun k => constName c k.emittedName)
    fun (id, c) => Owner.identifiers
      ⟨c.name, (if cx.program.constructs id then ["Construct"] else []) ++ c.methodParts⟩).count_eq
        name
  rw [hsymbols, fileScope, items]
  simp only [List.flatMap_append, defined_headerItems, defined_declarationItems,
    defined_bodyItems, List.count_append, List.count_nil] at hfirst hsecond ⊢
  omega

/-- No owner's identifier is the name of a helper. -/
theorem Owner.disjoint_helperItems (cx : Context) (d : Dialect) (owners : List Owner) :
    (owners.flatMap Owner.identifiers).Disjoint ((helperItems cx d).flatMap Item.defined) := by
  intro name howner hhelper
  obtain ⟨o, -, hname⟩ := List.mem_flatMap.mp howner
  obtain ⟨part, -, rfl⟩ := List.mem_map.mp hname
  have hplain : ∀ name ∈ ["streq", "strlen"], '_' ∉ name.toList := by decide
  exact hplain _ ((defined_helperItems cx d).subset hhelper) (by simp)

theorem nodup_fileScope_iff (cx : Context) (d : Dialect) : (fileScope cx d).Nodup ↔
    (∀ o ∈ cx.program.owners, o.parts.Nodup) ∧
      cx.program.owners.Pairwise fun a b => a.identifiers.Disjoint b.identifiers := by
  have hhelpers : ((helperItems cx d).flatMap Item.defined).Nodup :=
    (defined_helperItems cx d).nodup (by decide)
  rw [(perm_fileScope cx d).nodup_iff, List.nodup_append', List.nodup_flatMap]
  simp only [Owner.nodup_identifiers_iff, hhelpers, Owner.disjoint_helperItems, and_true]

end CFamily

namespace Program

open CFamily

variable {p : Program}

theorem nodup_parts_iff (h : p.DistinctMembers) : (∀ o ∈ p.owners, o.parts.Nodup) ↔
    (∀ e ∈ p.shownEnums, e.valueParts.Nodup) ∧
      (∀ entry ∈ p.shownClasses, entry.2.constantParts.Nodup ∧
        entry.2.constantParts.Disjoint entry.2.methodParts ∧
          (p.constructs entry.1 = true → "Construct" ∉ entry.2.methodParts)) ∧
      p.resourceParts.Nodup := by
  have hclass : ∀ entry ∈ p.shownClasses, ((entry.2.constantParts ++
      ((if p.constructs entry.1 then ["Construct"] else []) ++ entry.2.methodParts)).Nodup ↔
        entry.2.constantParts.Nodup ∧ entry.2.constantParts.Disjoint entry.2.methodParts ∧
          (p.constructs entry.1 = true → "Construct" ∉ entry.2.methodParts)) := by
    rintro ⟨id, c⟩ hentry
    have hmethods : c.methodParts.Nodup :=
      h.methods (mem_classes_of_classOf (mem_resolved.mp hentry).2)
    have hconstruct : "Construct" ∉ c.constantParts := fun hmem => by
      obtain ⟨k, -, hk⟩ := List.mem_map.mp hmem
      exact upperSnakeCase_ne_construct _ hk
    cases hconstructs : p.constructs id with
    | false => simp [List.nodup_append', hmethods]
    | true =>
        simp [List.nodup_append', hmethods, hconstruct]
        tauto
  simp only [owners, symbolOwners, List.forall_mem_append, List.forall_mem_map,
    List.forall_mem_singleton, and_assoc]
  exact and_congr_right' (and_congr_left' (forall₂_congr hclass))

theorem pairwise_owners_iff (h : p.DistinctSymbols) :
    (p.owners.Pairwise fun a b => a.identifiers.Disjoint b.identifiers) ↔
      (∀ o ∈ p.symbolOwners, o.name = "CiResource" → o.parts.Disjoint p.resourceParts) ∧
        ∀ a ∈ p.owners, ∀ b ∈ p.owners, ¬a.Reaches b := by
  simp only [Owner.disjoint_identifiers_iff]
  constructor
  · intro hpairs
    have hcross := (List.pairwise_append.mp hpairs).2.2
    refine ⟨fun o ho hname => (hcross o ho _ (List.mem_singleton_self _)).1 hname,
      fun a ha b hb => ?_⟩
    have hsymm : Std.Symm fun a b : Owner => ¬a.Reaches b ∧ ¬b.Reaches a := ⟨fun _ _ h => h.symm⟩
    exact (List.Pairwise.forall_of_forall (fun o _ => ⟨o.not_reaches_self, o.not_reaches_self⟩)
      (hpairs.imp And.right) ha hb).1
  · rintro ⟨hof, hreaches⟩
    have hnames : p.symbolOwners.Pairwise fun a b => a.name ≠ b.name :=
      List.pairwise_map.mp h.nodup_owners
    refine List.pairwise_append.mpr ⟨?_, List.pairwise_singleton _ _, ?_⟩
    · refine hnames.imp_of_mem fun ha hb hne => ⟨fun hname => absurd hname hne, ?_, ?_⟩
      · exact hreaches _ (List.mem_append_left _ ha) _ (List.mem_append_left _ hb)
      · exact hreaches _ (List.mem_append_left _ hb) _ (List.mem_append_left _ ha)
    · intro a ha b hb
      obtain rfl := List.mem_singleton.mp hb
      have hresources : (⟨"CiResource", p.resourceParts⟩ : Owner) ∈ p.owners :=
        List.mem_append_right _ hb
      exact ⟨hof a ha, hreaches _ (List.mem_append_left _ ha) _ hresources,
        hreaches _ hresources _ (List.mem_append_left _ ha)⟩

/-- Among symbols and members of distinct names, the identifiers of a file are distinct exactly if
the names are spelled apart. -/
theorem nodup_fileScope_iff_spelledApart (hsymbols : p.DistinctSymbols)
    (hmembers : p.DistinctMembers) (t : Target) (d : Dialect) :
    (fileScope ⟨p, t, none⟩ d).Nodup ↔ p.SpelledApart := by
  rw [nodup_fileScope_iff, nodup_parts_iff hmembers, pairwise_owners_iff hsymbols]
  constructor
  · rintro ⟨⟨hvalues, hclasses, hresources⟩, hof, howners⟩
    exact ⟨hvalues, fun entry hentry => (hclasses entry hentry).1,
      fun entry hentry => (hclasses entry hentry).2.1,
      fun entry hentry => (hclasses entry hentry).2.2, hresources, hof, howners⟩
  · intro h
    exact ⟨⟨h.values, fun entry hentry => ⟨h.constants entry hentry, h.methods entry hentry,
      h.construct entry hentry⟩, h.resources⟩, h.ofResources, h.owners⟩

end Program

namespace CFamily

variable {cx : Context} {d : Dialect} {p : Program} {name : String}

/-- Whatever is defined is declared, the helpers apart. -/
theorem exists_declared_of_mem_fileScope (h : name ∈ fileScope cx d)
    (hname : name ∉ ["streq", "strlen"]) : ∃ item ∈ items cx d, name ∈ item.declared := by
  obtain ⟨item, hitem, hdefined⟩ := List.mem_flatMap.mp h
  have hbody : item.isBody = true → ∃ entry ∈ cx.program.shownClasses,
      item ∈ (if cx.program.constructs entry.1 then [Item.constructor entry.1 entry.2] else []) ++
        entry.2.methods.map (Item.method entry.1 entry.2) := fun hbody =>
    List.mem_flatMap.mp ((List.mem_append.mp hitem).resolve_left fun hmem => by
      simp [isBody_of_mem_before hmem] at hbody)
  have hdeclaration : ∀ item ∈ declarationItems cx.program, item ∈ items cx d := fun item hmem =>
    List.mem_append_left _ (List.mem_append_left _ (List.mem_append_right _ hmem))
  cases item with
  | enumeration | definition | table | resource => exact ⟨_, hitem, hdefined⟩
  | constructor id c =>
      obtain ⟨entry, hentry, hmem⟩ := hbody rfl
      cases hconstructs : cx.program.constructs entry.1 with
      | false => simp [hconstructs] at hmem
      | true =>
          obtain ⟨rfl, rfl⟩ : id = entry.1 ∧ c = entry.2 := by simpa [hconstructs] using hmem
          exact ⟨_, hdeclaration _ (constructorPrototype_mem hentry hconstructs), hdefined⟩
  | method id c m =>
      obtain ⟨entry, hentry, hmem⟩ := hbody rfl
      obtain ⟨hm, rfl, rfl⟩ : m ∈ entry.2.methods ∧ entry.1 = id ∧ entry.2 = c := by
        split_ifs at hmem <;> simpa using hmem
      exact ⟨_, hdeclaration _ (prototype_mem hentry hm), hdefined⟩
  | helper helper text =>
      have hhelper : .helper helper text ∈ helperItems cx d := by
        cases d <;> simpa [items, headerItems, declarationItems, bodyItems] using hitem
      exact absurd ((defined_helperItems cx d).subset
        (List.mem_flatMap.mpr ⟨_, hhelper, hdefined⟩)) hname
  | _ => cases hdefined

/-- In the written file every identifier at file scope stands in a line that declares it. -/
theorem exists_line_of_mem_fileScope {o : Options} {files : List OutputFile}
    (h : (generate (Target.cFamily d).name p o).files = .ok files) : ∃ contents,
      files = [⟨outputPath (.cFamily d) o.output, contents⟩] ∧
      Spread ((items ⟨p, .cFamily d, none⟩ d).map (Item.text ⟨p, .cFamily d, none⟩ d)) contents ∧
      ∀ name ∈ fileScope ⟨p, .cFamily d, none⟩ d, name ∉ ["streq", "strlen"] →
        ∃ line : Code, line.Declares name ∧ HasLine contents (trimmed line.text) := by
  obtain ⟨contents, hfiles, hspread, hall⟩ := generate_eq_ok h
  refine ⟨contents, hfiles, hspread, fun name hmem hname => ?_⟩
  obtain ⟨item, hitem, hdeclared⟩ := exists_declared_of_mem_fileScope hmem hname
  obtain ⟨hof, hok⟩ := hall item hitem
  obtain ⟨line, hline, hdeclares⟩ := exists_line_of_declared hok hdeclared
  refine ⟨line, hdeclares, hspread.hasLine (fun text htext => ?_) (List.mem_map_of_mem hitem)
    (hasLine_text rfl hof hok hline hdeclares.trimmed_text_ne_empty)⟩
  obtain ⟨other, hother, rfl⟩ := List.mem_map.mp htext
  obtain ⟨hof, hok⟩ := hall other hother
  exact endsLine_text rfl hof hok

end CFamily

open CFamily

/-- A C file that is written for symbols and members of distinct names is made of its items; every
identifier that they define, the helpers' names apart, stands in a line that declares it; and these
identifiers are distinct exactly if the names are spelled apart. -/
theorem nodup_identifiers_of_files {p : Program} {d : Dialect} {o : Options}
    {files : List OutputFile} (hsymbols : p.DistinctSymbols) (hmembers : p.DistinctMembers)
    (h : (generate (Target.cFamily d).name p o).files = .ok files) : ∃ contents,
      files = [⟨outputPath (.cFamily d) o.output, contents⟩] ∧
      Spread ((items ⟨p, .cFamily d, none⟩ d).map (Item.text ⟨p, .cFamily d, none⟩ d)) contents ∧
      (∀ name ∈ fileScope ⟨p, .cFamily d, none⟩ d, name ∉ ["streq", "strlen"] →
        ∃ line : Code, line.Declares name ∧ HasLine contents (trimmed line.text)) ∧
      ((fileScope ⟨p, .cFamily d, none⟩ d).Nodup ↔ p.SpelledApart) := by
  obtain ⟨contents, hfiles, hspread, hlines⟩ := exists_line_of_mem_fileScope h
  exact ⟨contents, hfiles, hspread, hlines,
    Program.nodup_fileScope_iff_spelledApart hsymbols hmembers _ d⟩

/-- A class with a constant, a constructor and a method, beside a resource. -/
def Program.ClassDef.meter : ClassDef :=
  ⟨"Meter", .exported, none, some [],
    [.const ⟨"MaxValue", .exported, none, .int .int, .int 9, none⟩,
      .method ⟨"Reset", .exported, none, false, [], .void, []⟩], []⟩

def Program.meterProgram : Program :=
  ⟨[⟨"Unit", .exported, none, [⟨"Volt", none⟩, ⟨"Ampere", none⟩]⟩], [.meter],
    [.enumeration ⟨0⟩, .classDef ⟨0⟩], [], Resources.empty.insert "scale.bin" [1, 2]⟩

theorem Program.spelledApart_meterProgram : meterProgram.SpelledApart where
  values := by decide +kernel
  constants := by decide +kernel
  methods := by
    simp only [List.disjoint_left]
    decide +kernel
  construct := by decide +kernel
  resources := by decide +kernel
  ofResources o ho hname := by
    have hother : ∀ o ∈ meterProgram.symbolOwners, o.name ≠ "CiResource" := by decide +kernel
    exact absurd hname (hother o ho)
  owners a _ b hb := by
    have hplain : ∀ o ∈ meterProgram.owners, '_' ∉ o.name.toList := by decide +kernel
    exact Owner.not_reaches_of_notMem (hplain b hb)

theorem nodup_identifiers_of_files_meter : ∃ files,
    (generate "c" Program.meterProgram ⟨⟨"meter"⟩, none⟩).files = .ok files ∧
      Program.meterProgram.DistinctSymbols ∧ Program.meterProgram.DistinctMembers ∧
      fileScope ⟨Program.meterProgram, .cFamily .standard, none⟩ .standard =
        ["Unit_VOLT", "Unit_AMPERE", "Meter_MAX_VALUE", "CiResource_scale_bin", "Meter_Construct",
          "Meter_Reset"] ∧
      (fileScope ⟨Program.meterProgram, .cFamily .standard, none⟩ .standard).Nodup := by
  have hsymbols : Program.meterProgram.DistinctSymbols :=
    ⟨by decide +kernel, by decide +kernel, by decide⟩
  have hmembers : Program.meterProgram.DistinctMembers := ⟨by decide, by decide⟩
  have hrun : (generate "c" Program.meterProgram
      ⟨⟨"meter"⟩, none⟩).files.toOption.isSome = true := by
    decide +kernel
  obtain ⟨files, hfiles⟩ := Option.isSome_iff_exists.mp hrun
  have hfiles := Result.eq_ok_of_toOption hfiles
  obtain ⟨contents, -, -, -, hnodup⟩ :=
    nodup_identifiers_of_files (d := .standard) hsymbols hmembers hfiles
  exact ⟨files, hfiles, hsymbols, hmembers, by decide +kernel,
    hnodup.mpr Program.spelledApart_meterProgram⟩

/-- Two values of different names that are spelled alike. -/
def Program.replyProgram : Program :=
  ⟨[⟨"Reply", .exported, none, [⟨"HttpStatus", none⟩, ⟨"HTTPStatus", none⟩]⟩], [],
    [.enumeration ⟨0⟩], [], .empty⟩

/-- Names that the program keeps apart become one identifier, which the file defines twice. -/
theorem not_nodup_identifiers_of_values : Program.replyProgram.DistinctSymbols ∧
    Program.replyProgram.DistinctMembers ∧
    (∀ e ∈ Program.replyProgram.enums, ∀ value ∈ e.values, Reading.isWord value.name = true) ∧
    (generate "c" Program.replyProgram ⟨⟨"reply"⟩, none⟩).files = .ok [⟨⟨"reply.c"⟩,
      "enum \x7b\n\tReply_HTTP_STATUS = 0,\n\tReply_HTTP_STATUS = 1\n\x7d;\n"⟩] ∧
    fileScope ⟨Program.replyProgram, .cFamily .standard, none⟩ .standard =
      ["Reply_HTTP_STATUS", "Reply_HTTP_STATUS"] ∧
    ¬(fileScope ⟨Program.replyProgram, .cFamily .standard, none⟩ .standard).Nodup := by
  have hscope : fileScope ⟨Program.replyProgram, .cFamily .standard, none⟩ .standard =
      ["Reply_HTTP_STATUS", "Reply_HTTP_STATUS"] := by decide +kernel
  refine ⟨⟨by decide +kernel, by decide +kernel, by decide⟩, ⟨by decide, by decide⟩,
    by decide +kernel, Result.eq_ok_of_toOption (by decide +kernel), hscope, ?_⟩
  rw [hscope]
  decide

end Emitter
