import Emitter.Proofs.Whole.Assembled
import Emitter.Proofs.Whole.LayoutOrder

/-!
# Classes that are constructed

An instance of a class is constructed by a function if the class, or one it holds in place, does
something on construction. The search for such a class does not remember where it has been and
gives up after as many steps as there are classes. It loses nothing by that: a chain of classes
that leads somewhere leads there without coming back to a class, and then it is short enough.
-/

namespace Emitter.Program

open Relation

/-- A value of the type has an instance of the class in place: it is one, or it is a storage array
whose elements have one. -/
inductive Ty.InPlace (id : ClassId) : Ty → Prop
  | direct : InPlace id (.classStorage id)
  | element {element : Ty} {length : Option UInt32} :
      InPlace id element → InPlace id (.array element true length)

/-- A step by value: a field of the first class has an instance of the second in place. -/
def Embeds (p : Program) (id held : ClassId) : Prop :=
  ∃ c, p.classOf id = .ok c ∧ ∃ f ∈ c.fields, f.ty.InPlace held

/-- Constructing an instance of the class runs a block or gives a field its value. -/
def Initializes (p : Program) (id : ClassId) : Prop :=
  ∃ c, p.classOf id = .ok c ∧ (c.constructor?.isSome ∨ ∃ f ∈ c.fields, f.value.isSome)

variable {p : Program} {id held last : ClassId} {path : List ClassId}

theorem Ty.heldClass_eq_some_iff {ty : Ty} : ty.heldClass = some id ↔ ty.InPlace id := by
  constructor
  · intro h
    induction ty with
    | classStorage c =>
        obtain rfl := Option.some.inj h
        exact .direct
    | array element storage length ih =>
        cases storage with
        | true => exact .element (ih h)
        | false => exact absurd h (by simp [Ty.heldClass])
    | _ => exact absurd h (by simp [Ty.heldClass])
  · intro h
    induction h with
    | direct => rfl
    | element _ ih => exact ih

theorem ClassDef.mem_heldClasses_iff {c : ClassDef} :
    held ∈ c.heldClasses ↔ ∃ f ∈ c.fields, f.ty.InPlace held := by
  simp only [heldClasses, List.mem_filterMap, Ty.heldClass_eq_some_iff]

theorem holds_eq_embeds : p.Holds = p.Embeds := by
  funext id held
  simp only [Holds, Embeds, ClassDef.mem_heldClasses_iff]

theorem ClassDef.initializes_iff {c : ClassDef} :
    c.initializes = true ↔ c.constructor?.isSome ∨ ∃ f ∈ c.fields, f.value.isSome := by
  simp [initializes]

theorem initializes_iff {c : ClassDef} (hc : p.classOf id = .ok c) :
    p.Initializes id ↔ c.initializes = true := by
  rw [ClassDef.initializes_iff]
  constructor
  · rintro ⟨c', hc', h⟩
    obtain rfl := Except.ok.inj (hc.symm.trans hc')
    exact h
  · intro h
    exact ⟨c, hc, h⟩

theorem Holds.classOf_iff {c : ClassDef} (hc : p.classOf id = .ok c) :
    p.Holds id held ↔ held ∈ c.heldClasses := by
  constructor
  · rintro ⟨c', hc', h⟩
    obtain rfl := Except.ok.inj (hc.symm.trans hc')
    exact h
  · intro h
    exact ⟨c, hc, h⟩

/-- A chain from a class to one that initializes something, each holding the next in place. -/
inductive Leads (p : Program) : ClassId → List ClassId → Prop
  | here {id : ClassId} : p.Initializes id → Leads p id []
  | step {id held : ClassId} {path : List ClassId} :
      p.Holds id held → Leads p held path → Leads p id (held :: path)

theorem exists_leads_iff :
    (∃ path, p.Leads id path) ↔ ∃ last, ReflTransGen p.Holds id last ∧ p.Initializes last := by
  constructor
  · rintro ⟨path, h⟩
    induction h with
    | here h => exact ⟨_, .refl, h⟩
    | step hholds _ ih =>
        obtain ⟨last, hreach, h⟩ := ih
        exact ⟨last, .head hholds hreach, h⟩
  · rintro ⟨last, hreach, h⟩
    induction hreach using ReflTransGen.head_induction_on with
    | refl => exact ⟨[], .here h⟩
    | head hholds _ ih =>
        obtain ⟨path, hpath⟩ := ih
        exact ⟨_ :: path, .step hholds hpath⟩

/-- Every class on a chain starts a chain of its own. -/
theorem Leads.from_mem (h : p.Leads id path) (hmem : held ∈ id :: path) :
    ∃ rest, p.Leads held rest ∧ held :: rest <:+ id :: path := by
  induction h with
  | here h =>
      obtain rfl := List.mem_singleton.mp hmem
      exact ⟨[], .here h, List.suffix_refl _⟩
  | @step id next path hholds hpath ih =>
      rcases List.mem_cons.mp hmem with rfl | hmem
      · exact ⟨next :: path, .step hholds hpath, List.suffix_refl _⟩
      · obtain ⟨rest, hrest, hsuffix⟩ := ih hmem
        exact ⟨rest, hrest, hsuffix.trans (List.suffix_cons id _)⟩

/-- A chain that comes back to a class can be cut short there. -/
theorem Leads.exists_nodup (h : p.Leads id path) :
    ∃ path, p.Leads id path ∧ (id :: path).Nodup := by
  induction h with
  | here h => exact ⟨[], .here h, List.nodup_singleton _⟩
  | @step id next path hholds _ ih =>
      obtain ⟨path, hpath, hnodup⟩ := ih
      by_cases hmem : id ∈ next :: path
      · obtain ⟨rest, hrest, hsuffix⟩ := hpath.from_mem hmem
        exact ⟨rest, hrest, hnodup.sublist hsuffix.sublist⟩
      · exact ⟨next :: path, .step hholds hpath, List.nodup_cons.mpr ⟨hmem, hnodup⟩⟩

theorem Leads.declares (h : p.Leads id path) :
    ∀ i ∈ id :: path, p.declares (.classDef i) = true := by
  intro i hi
  induction h with
  | here h =>
      obtain rfl := List.mem_singleton.mp hi
      obtain ⟨c, hc, -⟩ := h
      exact declares_of_classOf hc
  | step hholds _ ih =>
      rcases List.mem_cons.mp hi with rfl | hi
      · obtain ⟨c, hc, -⟩ := hholds
        exact declares_of_classOf hc
      · exact ih hi

/-- A chain need not be longer than the list of classes. -/
theorem Leads.exists_short (h : p.Leads id path) :
    ∃ path, p.Leads id path ∧ path.length < p.classes.length := by
  obtain ⟨path, hpath, hnodup⟩ := h.exists_nodup
  exact ⟨path, hpath, length_le_of_nodup hnodup hpath.declares⟩

theorem anyM_eq_ok_true_iff {α : Type} {f : α → Except SymbolId Bool} {items : List α}
    (h : ∀ item ∈ items, ∃ b, f item = .ok b) :
    items.anyM f = .ok true ↔ ∃ item ∈ items, f item = .ok true := by
  induction items with
  | nil => simp [List.anyM, pure, Except.pure]
  | cons item rest ih =>
      obtain ⟨⟨b, hb⟩, hrest⟩ := List.forall_mem_cons.mp h
      cases b with
      | true => simp [List.anyM, hb, bind, Except.bind, pure, Except.pure]
      | false => simpa [List.anyM, hb, bind, Except.bind] using ih hrest

/-- The search with some fuel finds a class at the end of a chain with fewer steps. -/
theorem Whole.constructsWithin_iff (h : p.Whole) {fuel : Nat}
    (hid : p.declares (.classDef id) = true) :
    p.constructsWithin fuel id = .ok true ↔ ∃ path, p.Leads id path ∧ path.length < fuel := by
  induction fuel generalizing id with
  | zero => simp [Program.constructsWithin]
  | succ fuel ih =>
      obtain ⟨c, hc, hclass⟩ := exists_classOf hid
      have hheld : ∀ held ∈ c.heldClasses, p.declares (.classDef held) = true :=
        fun held hheld => h.heldClasses hc hheld
      have hstep : c.heldClasses.anyM (p.constructsWithin fuel) = .ok true ↔
          ∃ held, p.Holds id held ∧ ∃ path, p.Leads held path ∧ path.length < fuel := by
        rw [anyM_eq_ok_true_iff fun held hmem => h.constructsWithin fuel (hheld held hmem)]
        constructor
        · rintro ⟨held, hmem, hfound⟩
          exact ⟨held, ⟨c, hclass, hmem⟩, (ih (hheld held hmem)).mp hfound⟩
        · rintro ⟨held, hholds, hpath⟩
          have hmem := (Holds.classOf_iff hclass).mp hholds
          exact ⟨held, hmem, (ih (hheld held hmem)).mpr hpath⟩
      rw [Program.constructsWithin, hclass]
      simp only [bind, Except.bind]
      by_cases hinit : c.initializes = true
      · simp only [hinit, if_true, pure, Except.pure, true_iff]
        exact ⟨[], .here ((initializes_iff hclass).mpr hinit), Nat.succ_pos fuel⟩
      · rw [if_neg hinit, hstep]
        constructor
        · rintro ⟨held, hholds, path, hpath, hlength⟩
          exact ⟨held :: path, .step hholds hpath, Nat.succ_lt_succ hlength⟩
        · rintro ⟨path, hpath, hlength⟩
          cases hpath with
          | here h => exact absurd ((initializes_iff hclass).mp h) hinit
          | step hholds hpath => exact ⟨_, hholds, _, hpath, Nat.lt_of_succ_lt_succ hlength⟩

theorem Whole.needsConstruction_iff (h : p.Whole) (hid : p.declares (.classDef id) = true) :
    p.needsConstruction id = .ok true ↔
      ∃ last, ReflTransGen p.Holds id last ∧ p.Initializes last := by
  rw [Program.needsConstruction, h.constructsWithin_iff hid, ← exists_leads_iff]
  constructor
  · rintro ⟨path, hpath, -⟩
    exact ⟨path, hpath⟩
  · rintro ⟨path, hpath⟩
    obtain ⟨path, hpath, hlength⟩ := hpath.exists_short
    exact ⟨path, hpath, Nat.lt_succ_of_lt hlength⟩

/-- In a program without dangling references, whether or not its classes hold each other in a
circle, a class needs construction exactly if steps by value lead from it to a class with a
constructor or with a field that has a value. -/
theorem needsConstruction_iff_reaches (hp : p.findDangling = none)
    (hid : p.declares (.classDef id) = true) :
    ∃ needed, p.needsConstruction id = .ok needed ∧
      (needed = true ↔ ∃ last c, ReflTransGen p.Embeds id last ∧ p.classOf last = .ok c ∧
        (c.constructor?.isSome ∨ ∃ f ∈ c.fields, f.value.isSome)) := by
  have hwhole := whole_of_findDangling hp
  obtain ⟨needed, hneeded⟩ := hwhole.needsConstruction hid
  have hiff := hwhole.needsConstruction_iff hid
  rw [hneeded, Except.ok.injEq, holds_eq_embeds] at hiff
  refine ⟨needed, hneeded, hiff.trans ?_⟩
  constructor
  · rintro ⟨last, hreach, c, hc, h⟩
    exact ⟨last, c, hreach, hc, h⟩
  · rintro ⟨last, c, hreach, hc, h⟩
    exact ⟨last, hreach, c, hc, h⟩

/-- Two classes that hold each other, one of them in an array of arrays, and a class that the other
one holds and that has a field with a value. -/
def ringed : Program :=
  ⟨[], [⟨"Ring", .exported, none, none, [.field ⟨"links", .exported, none,
        .array (.array (.classStorage ⟨1⟩) true (some 2)) true (some 3), none⟩], []⟩,
      ⟨"Link", .exported, none, none, [.field ⟨"ring", .exported, none, .classStorage ⟨0⟩, none⟩,
        .field ⟨"seed", .exported, none, .classStorage ⟨2⟩, none⟩], []⟩,
      ⟨"Seed", .exported, none, none, [.field ⟨"size", .exported, none, .int .int,
        some (.literal (.int 1) (.int .int))⟩], []⟩],
    [.classDef ⟨0⟩, .classDef ⟨1⟩, .classDef ⟨2⟩], [], .empty⟩

theorem needsConstruction_iff_reaches_ringed :
    ringed.findDangling = none ∧ ringed.declares (.classDef ⟨0⟩) = true ∧
      ringed.needsConstruction ⟨0⟩ = .ok true ∧
      ∃ last c, ReflTransGen ringed.Embeds ⟨0⟩ last ∧ ringed.classOf last = .ok c ∧
        (c.constructor?.isSome ∨ ∃ f ∈ c.fields, f.value.isSome) := by
  have hneeds : ringed.needsConstruction ⟨0⟩ = .ok true := rfl
  obtain ⟨needed, hneeded, hiff⟩ := @needsConstruction_iff_reaches ringed ⟨0⟩ rfl rfl
  obtain rfl := Except.ok.inj (hneeds.symm.trans hneeded)
  exact ⟨rfl, rfl, hneeds, hiff.mp rfl⟩

end Emitter.Program
