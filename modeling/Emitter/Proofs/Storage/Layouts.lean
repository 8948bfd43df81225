import Emitter.Proofs.Storage.Held

/-!
# Which classes are laid out

The order of layouts is what a depth-first walk over the classes leaves behind. The walk is
described here without a limit on its depth: it always ends, it is the only one, and a search with
more steps than there are classes is that walk. What it enters is what steps by value reach, and
each class that it enters and that has instances is laid out once.
-/

namespace Emitter.Program

open Relation

variable {p : Program} {id held : ClassId} {ids order : List ClassId} {c : ClassDef}
  {walk walk' : LayoutWalk}

/-- The walk has entered the class. -/
def LayoutWalk.enter (walk : LayoutWalk) (id : ClassId) : LayoutWalk :=
  { walk with entered := id :: walk.entered }

/-- The walk leaves the class, and lays it out if it has instances. -/
def LayoutWalk.leave (walk : LayoutWalk) (id : ClassId) (c : ClassDef) : LayoutWalk :=
  if c.isStatic then walk else { walk with order := walk.order ++ [id] }

@[simp] theorem LayoutWalk.entered_enter : (walk.enter id).entered = id :: walk.entered := rfl

@[simp] theorem LayoutWalk.order_enter : (walk.enter id).order = walk.order := rfl

@[simp] theorem LayoutWalk.entered_leave : (walk.leave id c).entered = walk.entered := by
  unfold leave
  split_ifs <;> rfl

theorem LayoutWalk.order_leave :
    (walk.leave id c).order = walk.order ++ if c.isStatic then [] else [id] := by
  unfold leave
  split_ifs <;> simp

/-- The walk over the classes of a list, one after the other, as deep as it goes. -/
inductive Walks (p : Program) : LayoutWalk → List ClassId → LayoutWalk → Prop
  | done {walk : LayoutWalk} : Walks p walk [] walk
  | skip {walk walk' : LayoutWalk} {id : ClassId} {ids : List ClassId} :
      id ∈ walk.entered → Walks p walk ids walk' → Walks p walk (id :: ids) walk'
  | visit {walk inner walk' : LayoutWalk} {id : ClassId} {ids : List ClassId} {c : ClassDef} :
      id ∉ walk.entered → p.classOf id = .ok c → Walks p (walk.enter id) c.heldClasses inner →
        Walks p (inner.leave id c) ids walk' → Walks p walk (id :: ids) walk'

/-- What a walk has entered are different classes of the program. -/
structure LayoutWalk.Entered (p : Program) (walk : LayoutWalk) : Prop where
  nodup : walk.entered.Nodup
  declared : ∀ id ∈ walk.entered, p.declares (.classDef id) = true

theorem LayoutWalk.Entered.length_le (h : walk.Entered p) :
    walk.entered.length ≤ p.classes.length :=
  length_le_of_nodup h.nodup h.declared

theorem LayoutWalk.Entered.enter (h : walk.Entered p) (hnew : id ∉ walk.entered)
    (hid : p.declares (.classDef id) = true) : (walk.enter id).Entered p where
  nodup := List.nodup_cons.mpr ⟨hnew, h.nodup⟩
  declared := List.forall_mem_cons.mpr ⟨hid, h.declared⟩

theorem LayoutWalk.Entered.leave (h : walk.Entered p) : (walk.leave id c).Entered p := by
  constructor
  · simpa using h.nodup
  · simpa using h.declared

theorem Walks.suffix (h : p.Walks walk ids walk') : walk.entered <:+ walk'.entered := by
  induction h with
  | done => exact List.suffix_refl _
  | skip _ _ ih => exact ih
  | visit _ _ _ _ ihheld ihrest =>
      rw [LayoutWalk.entered_leave] at ihrest
      exact ((List.suffix_cons _ _).trans ihheld).trans ihrest

theorem Walks.entered (h : p.Walks walk ids walk') (hwalk : walk.Entered p) :
    walk'.Entered p := by
  induction h with
  | done => exact hwalk
  | skip _ _ ih => exact ih hwalk
  | visit hnew hclass _ _ ihheld ihrest =>
      exact ihrest (ihheld (hwalk.enter hnew (declares_of_classOf hclass))).leave

/-- The walk ends: each class that it enters is one less to enter. -/
theorem Whole.exists_walks (h : p.Whole) (hwalk : walk.Entered p)
    (hids : ∀ id ∈ ids, p.declares (.classDef id) = true) : ∃ walk', p.Walks walk ids walk' := by
  -- Going down a class is entered; going along, the list gets shorter and no class is left.
  have hends : ∀ left, ∀ walk : LayoutWalk, walk.Entered p →
      p.classes.length ≤ walk.entered.length + left → ∀ ids : List ClassId,
        (∀ id ∈ ids, p.declares (.classDef id) = true) → ∃ walk', p.Walks walk ids walk' := by
    intro left
    induction left with
    | zero =>
        intro walk hwalk hleft ids hids
        induction ids with
        | nil => exact ⟨walk, .done⟩
        | cons id rest ih =>
            obtain ⟨hid, hrest⟩ := List.forall_mem_cons.mp hids
            obtain ⟨walk', hwalks⟩ := ih hrest
            by_cases hentered : id ∈ walk.entered
            · exact ⟨walk', .skip hentered hwalks⟩
            · have hlength := (hwalk.enter hentered hid).length_le
              rw [LayoutWalk.entered_enter, List.length_cons] at hlength
              omega
    | succ left ih =>
        intro walk hwalk hleft ids hids
        induction ids generalizing walk with
        | nil => exact ⟨walk, .done⟩
        | cons id rest ihrest =>
            obtain ⟨hid, hrest⟩ := List.forall_mem_cons.mp hids
            by_cases hentered : id ∈ walk.entered
            · obtain ⟨walk', hwalks⟩ := ihrest walk hwalk hleft hrest
              exact ⟨walk', .skip hentered hwalks⟩
            · obtain ⟨c, hc, hclass⟩ := exists_classOf hid
              have hheld : ∀ held ∈ c.heldClasses, p.declares (.classDef held) = true :=
                fun held hmem => h.heldClasses hc hmem
              have hroom : p.classes.length ≤ (walk.enter id).entered.length + left := by
                rw [LayoutWalk.entered_enter, List.length_cons]
                omega
              obtain ⟨inner, hinner⟩ :=
                ih (walk.enter id) (hwalk.enter hentered hid) hroom c.heldClasses hheld
              have hleave : (inner.leave id c).Entered p :=
                (hinner.entered (hwalk.enter hentered hid)).leave
              have hgrown : p.classes.length ≤ (inner.leave id c).entered.length + (left + 1) := by
                have hlength := hinner.suffix.length_le
                rw [LayoutWalk.entered_leave]
                omega
              obtain ⟨walk', hwalks⟩ := ihrest (inner.leave id c) hleave hgrown hrest
              exact ⟨walk', .visit hentered hclass hinner hwalks⟩
  exact hends p.classes.length walk hwalk (Nat.le_add_left _ _) ids hids

/-- Any search that lasts for the classes that are left is the walk. -/
theorem Walks.foldlM_eq (h : p.Walks walk ids walk') (hwalk : walk.Entered p) {fuel : Nat}
    (hfuel : walk.Lasts p fuel) : ids.foldlM (p.layOut fuel) walk = .ok walk' := by
  induction h generalizing fuel with
  | done => rfl
  | @skip walk walk' id ids hentered _ ih =>
      cases fuel with
      | zero => exact absurd hfuel (Nat.not_lt.mpr hwalk.length_le)
      | succ fuel =>
          have hstep : p.layOut (fuel + 1) walk id = .ok walk := by
            rw [Program.layOut, if_pos hentered]
            rfl
          rw [List.foldlM_cons, hstep]
          exact ih hwalk hfuel
  | @visit walk inner walk' id ids c hnew hclass hheld _ ihheld ihrest =>
      cases fuel with
      | zero => exact absurd hfuel (Nat.not_lt.mpr hwalk.length_le)
      | succ fuel =>
          have henter := hwalk.enter hnew (declares_of_classOf hclass)
          have hinner : c.heldClasses.foldlM (p.layOut fuel) (walk.enter id) = .ok inner := by
            apply ihheld henter
            unfold LayoutWalk.Lasts at hfuel ⊢
            rw [LayoutWalk.entered_enter, List.length_cons]
            omega
          have hstep : p.layOut (fuel + 1) walk id = .ok (inner.leave id c) := by
            rw [Program.layOut, if_neg hnew, hclass]
            change (c.heldClasses.foldlM (p.layOut fuel) (walk.enter id) >>= _) = _
            rw [hinner, LayoutWalk.leave]
            by_cases hstatic : c.isStatic = true
            · rw [if_pos hstatic]
              simp [hstatic, bind, Except.bind, pure, Except.pure]
            · rw [if_neg hstatic]
              simp [hstatic, bind, Except.bind, pure, Except.pure]
          rw [List.foldlM_cons, hstep]
          refine ihrest (hheld.entered henter).leave ?_
          have hlength := hheld.suffix.length_le
          unfold LayoutWalk.Lasts at hfuel ⊢
          rw [LayoutWalk.entered_leave]
          rw [LayoutWalk.entered_enter, List.length_cons] at hlength
          omega

/-! The walk enters what it is asked for and whatever that holds, and it leaves a class behind all
that the class holds. -/

theorem Walks.passes (h : p.Walks walk ids walk') : ∀ id ∈ ids, id ∈ walk'.entered := by
  induction h with
  | done => simp
  | skip hentered hrest ih => exact List.forall_mem_cons.mpr ⟨hrest.suffix.subset hentered, ih⟩
  | visit _ _ hheld hrest _ ihrest =>
      refine List.forall_mem_cons.mpr ⟨hrest.suffix.subset ?_, ihrest⟩
      rw [LayoutWalk.entered_leave]
      exact hheld.suffix.subset List.mem_cons_self

/-- The walk enters what is held by the classes that it enters. -/
theorem Walks.closed (h : p.Walks walk ids walk') : ∀ id ∈ walk'.entered,
    id ∈ walk.entered ∨ ∀ held, p.Holds id held → held ∈ walk'.entered := by
  induction h with
  | done => exact fun id hid => .inl hid
  | skip _ _ ih => exact ih
  | @visit walk inner walk' id ids c _ hclass hheld hrest ihheld ihrest =>
      have hsubset : inner.entered ⊆ walk'.entered := by
        simpa using hrest.suffix.subset
      intro i hi
      rcases ihrest i hi with hinner | hdone
      · rw [LayoutWalk.entered_leave] at hinner
        rcases ihheld i hinner with hopen | hdone
        · rcases List.mem_cons.mp hopen with rfl | hbefore
          · right
            intro held hholds
            exact hsubset (hheld.passes held ((Holds.classOf_iff hclass).mp hholds))
          · exact .inl hbefore
        · exact .inr fun held hholds => hsubset (hdone held hholds)
      · exact .inr hdone

/-- The walk enters nothing but what steps by value reach. -/
theorem Walks.reached (h : p.Walks walk ids walk') : ∀ id ∈ walk'.entered,
    id ∈ walk.entered ∨ ∃ root ∈ ids, ReflTransGen p.Holds root id := by
  induction h with
  | done => exact fun id hid => .inl hid
  | skip _ _ ih =>
      intro i hi
      refine (ih i hi).imp_right ?_
      rintro ⟨root, hroot, hreach⟩
      exact ⟨root, List.mem_cons_of_mem _ hroot, hreach⟩
  | @visit walk inner walk' id ids c _ hclass _ _ ihheld ihrest =>
      intro i hi
      rcases ihrest i hi with hinner | ⟨root, hroot, hreach⟩
      · rw [LayoutWalk.entered_leave] at hinner
        rcases ihheld i hinner with hopen | ⟨held, hheld, hreach⟩
        · rcases List.mem_cons.mp hopen with rfl | hbefore
          · exact .inr ⟨i, List.mem_cons_self, .refl⟩
          · exact .inl hbefore
        · exact .inr ⟨id, List.mem_cons_self, hreach.head ⟨c, hclass, hheld⟩⟩
      · exact .inr ⟨root, List.mem_cons_of_mem _ hroot, hreach⟩

theorem HasInstances.classOf_iff (hc : p.classOf id = .ok c) :
    p.HasInstances id ↔ c.isStatic = false := by
  constructor
  · rintro ⟨c', hc', h⟩
    obtain rfl := Except.ok.inj (hc.symm.trans hc')
    exact h
  · intro h
    exact ⟨c, hc, h⟩

/-- The walk lays out, once each, the classes that it enters and that have instances. -/
theorem Walks.exists_order (h : p.Walks walk ids walk') : ∃ added,
    walk'.order = walk.order ++ added ∧ added.Nodup ∧
      ∀ id, id ∈ added ↔ (id ∈ walk'.entered ∧ id ∉ walk.entered) ∧ p.HasInstances id := by
  induction h with
  | done => exact ⟨[], by simp, .nil, by simp⟩
  | skip _ _ ih => exact ih
  | @visit walk inner walk' id ids c hnew hclass hheld hrest ihheld ihrest =>
      obtain ⟨below, hbelow, hbelowNodup, hmemBelow⟩ := ihheld
      obtain ⟨after, hafter, hafterNodup, hmemAfter⟩ := ihrest
      rw [LayoutWalk.entered_leave] at hmemAfter
      rw [LayoutWalk.entered_enter] at hmemBelow
      set own : List ClassId := if c.isStatic then [] else [id] with hown
      have hmemOwn : ∀ i, i ∈ own ↔ i = id ∧ p.HasInstances id := by
        intro i
        rw [hown, HasInstances.classOf_iff hclass]
        by_cases hstatic : c.isStatic = true <;> simp [hstatic]
      have hinner : id ∈ inner.entered := hheld.suffix.subset List.mem_cons_self
      have hbefore : walk.entered ⊆ inner.entered :=
        fun i hi => hheld.suffix.subset (List.mem_cons_of_mem id hi)
      have hlater : inner.entered ⊆ walk'.entered := by simpa using hrest.suffix.subset
      refine ⟨below ++ own ++ after, ?_, ?_, ?_⟩
      · rw [hafter, LayoutWalk.order_leave, hbelow, LayoutWalk.order_enter]
        simp only [hown, List.append_assoc]
      · -- The classes below and the class itself were entered before the walk went on.
        refine List.Nodup.append (List.Nodup.append hbelowNodup ?_ ?_) hafterNodup ?_
        · rw [hown]
          split_ifs <;> simp
        · intro i hi hi'
          obtain ⟨rfl, -⟩ := (hmemOwn i).mp hi'
          exact ((hmemBelow i).mp hi).1.2 List.mem_cons_self
        · intro i hi hi'
          apply ((hmemAfter i).mp hi').1.2
          rcases List.mem_append.mp hi with hi | hi
          · exact ((hmemBelow i).mp hi).1.1
          · obtain ⟨rfl, -⟩ := (hmemOwn i).mp hi
            exact hinner
      · intro i
        simp only [List.mem_append, hmemBelow, hmemOwn, hmemAfter, List.mem_cons, not_or]
        constructor
        · rintro ((⟨⟨hi, hne, hfresh⟩, hinst⟩ | ⟨rfl, hinst⟩) | ⟨⟨hi, hfresh⟩, hinst⟩)
          · exact ⟨⟨hlater hi, hfresh⟩, hinst⟩
          · exact ⟨⟨hlater hinner, hnew⟩, hinst⟩
          · exact ⟨⟨hi, fun hmem => hfresh (hbefore hmem)⟩, hinst⟩
        · rintro ⟨⟨hi, hfresh⟩, hinst⟩
          by_cases hmem : i ∈ inner.entered
          · by_cases heq : i = id
            · exact .inl (.inr ⟨heq, heq ▸ hinst⟩)
            · exact .inl (.inl ⟨⟨hmem, heq, hfresh⟩, hinst⟩)
          · exact .inr ⟨⟨hi, hmem⟩, hinst⟩

/-- Classes that the top-level symbols list or that steps by value lead to from there. -/
def Reached (p : Program) (id : ClassId) : Prop :=
  ∃ root ∈ p.globalClassIds, ReflTransGen p.Embeds root id

theorem Reached.step (h : p.Reached id) (hholds : p.Embeds id held) : p.Reached held := by
  obtain ⟨root, hroot, hreach⟩ := h
  exact ⟨root, hroot, hreach.tail hholds⟩

/-- Steps by value between the classes of a list. -/
def EmbedsWithin (p : Program) (order : List ClassId) (id held : ClassId) : Prop :=
  id ∈ order ∧ held ∈ order ∧ p.Embeds id held

theorem entered_start : (⟨[], []⟩ : LayoutWalk).Entered p := ⟨.nil, by simp⟩

theorem Walks.mem_entered_iff (h : p.Walks ⟨[], []⟩ p.globalClassIds walk') :
    id ∈ walk'.entered ↔ p.Reached id := by
  constructor
  · intro hid
    rw [Reached, ← holds_eq_embeds]
    exact (h.reached id hid).resolve_left List.not_mem_nil
  · rintro ⟨root, hroot, hreach⟩
    rw [← holds_eq_embeds] at hreach
    induction hreach with
    | refl => exact h.passes root hroot
    | tail _ hholds ih => exact (h.closed _ ih).resolve_left List.not_mem_nil _ hholds

/-- A class that has another one in place has a field, so it is not static. -/
theorem Embeds.hasInstances (h : p.Embeds id held) : p.HasInstances id := by
  obtain ⟨c, hc, f, hf, -⟩ := h
  refine ⟨c, hc, ?_⟩
  have hfields : c.fields ≠ [] := List.ne_nil_of_mem hf
  simp [ClassDef.isStatic, hfields]

/-- A way by value between two classes that have layouts stays among the classes that do. -/
theorem transGen_embedsWithin (hmem : ∀ i, i ∈ order ↔ p.Reached i ∧ p.HasInstances i)
    (hid : id ∈ order) (h : TransGen p.Embeds id held) (hheld : p.HasInstances held) :
    TransGen (p.EmbedsWithin order) id held := by
  have hreached : ∀ {last}, TransGen p.Embeds id last → p.Reached last := by
    intro last h
    induction h with
    | single hstep => exact ((hmem id).mp hid).1.step hstep
    | tail _ hstep ih => exact ih.step hstep
  induction h with
  | single hstep =>
      exact .single ⟨hid, (hmem _).mpr ⟨hreached (.single hstep), hheld⟩, hstep⟩
  | tail hway hstep ih =>
      have hmiddle := hstep.hasInstances
      refine (ih hmiddle).tail ⟨?_, ?_, hstep⟩
      · exact (hmem _).mpr ⟨hreached hway, hmiddle⟩
      · exact (hmem _).mpr ⟨hreached (hway.tail hstep), hheld⟩

/-- In a program without dangling references the search for the order of layouts comes to an end,
whatever number of steps beyond that of the classes it is given. It lists, once each, the classes
with instances that steps by value reach from the top-level symbols, and if no such steps lead from
a listed class back to it over listed ones, each is listed behind those it has in place. -/
theorem layoutOrder_exact (hp : p.findDangling = none) : ∃ order, p.layoutOrder = .ok order ∧
    (∀ fuel, p.classes.length < fuel → ∃ walk,
      p.globalClassIds.foldlM (p.layOut fuel) ⟨[], []⟩ = .ok walk ∧ walk.order = order) ∧
    order.Nodup ∧
    (∀ id, id ∈ order ↔ p.Reached id ∧ ∃ c, p.classOf id = .ok c ∧ c.isStatic = false) ∧
    ((∀ id, ¬TransGen (p.EmbedsWithin order) id id) → ∀ before id after,
      order = before ++ id :: after → ∀ held c, p.Embeds id held → p.classOf held = .ok c →
        c.isStatic = false → held ∈ before) := by
  have hwhole := whole_of_findDangling hp
  obtain ⟨walk, hwalk⟩ := hwhole.exists_walks entered_start fun id hid => hwhole.globalClassIds hid
  obtain ⟨added, horder, hnodup, hadded⟩ := hwalk.exists_order
  rw [List.nil_append] at horder
  have hrun : ∀ fuel, p.classes.length < fuel →
      p.globalClassIds.foldlM (p.layOut fuel) ⟨[], []⟩ = .ok walk := fun fuel hfuel =>
    hwalk.foldlM_eq entered_start (by simpa [LayoutWalk.Lasts] using hfuel)
  have hlayout : p.layoutOrder = .ok walk.order := by
    rw [Program.layoutOrder, hrun _ (Nat.lt_succ_self _)]
    rfl
  have hmem : ∀ id, id ∈ walk.order ↔ p.Reached id ∧ p.HasInstances id := by
    intro id
    rw [horder, hadded, hwalk.mem_entered_iff]
    simp
  refine ⟨walk.order, hlayout, fun fuel hfuel => ⟨walk, hrun fuel hfuel, rfl⟩, horder ▸ hnodup,
    hmem, ?_⟩
  intro hacyclic before id after hsplit held c hembeds hheld hstatic
  obtain ⟨order, hrun', -, hbehind⟩ := hwhole.layoutOrder_sound
  obtain rfl := Except.ok.inj (hlayout.symm.trans hrun')
  rw [holds_eq_embeds] at hbehind
  refine (hbehind before id after hsplit held hembeds ⟨c, hheld, hstatic⟩).resolve_right ?_
  intro hback
  have hid : id ∈ walk.order := by simp [hsplit]
  have hcircle : TransGen p.Embeds id id := hback.head hembeds
  exact hacyclic id (transGen_embedsWithin hmem hid hcircle ((hmem id).mp hid).2)

/-- A class with an array of instances of a class that has an instance of a third one. -/
def stacked : Program :=
  ⟨[], [⟨"Outer", .exported, none, none, [.field ⟨"parts", .exported, none,
        .array (.classStorage ⟨1⟩) true (some 2), none⟩], []⟩,
      ⟨"Inner", .exported, none, none,
        [.field ⟨"core", .exported, none, .classStorage ⟨2⟩, none⟩], []⟩,
      ⟨"Core", .exported, none, none, [.field ⟨"size", .exported, none, .int .int, none⟩], []⟩],
    [.classDef ⟨0⟩, .classDef ⟨1⟩], [], .empty⟩

theorem layoutOrder_exact_stacked : stacked.findDangling = none ∧
    ∃ order, stacked.layoutOrder = .ok order ∧ order.Nodup ∧ (⟨2⟩ : ClassId) ∈ order ∧
      ∀ before after, order = before ++ ⟨0⟩ :: after → (⟨1⟩ : ClassId) ∈ before := by
  obtain ⟨order, horder, -, hnodup, hmem, hbehind⟩ := layoutOrder_exact (p := stacked) rfl
  obtain rfl : [⟨2⟩, ⟨1⟩, ⟨0⟩] = order := Except.ok.inj horder
  have houter : stacked.Embeds ⟨0⟩ ⟨1⟩ := ⟨_, rfl, _, List.mem_cons_self, .element .direct⟩
  have hinner : stacked.Embeds ⟨1⟩ ⟨2⟩ := ⟨_, rfl, _, List.mem_cons_self, .direct⟩
  -- A class has only those in place that are declared behind it.
  have hlater :
      ∀ id held, stacked.EmbedsWithin [⟨2⟩, ⟨1⟩, ⟨0⟩] id held → id.index < held.index := by
    rintro id held ⟨hid, -, hembeds⟩
    rw [← holds_eq_embeds] at hembeds
    obtain ⟨c, hc, hheld⟩ := hembeds
    rcases List.mem_cons.mp hid with rfl | hid
    · obtain rfl := Except.ok.inj hc
      exact absurd hheld List.not_mem_nil
    rcases List.mem_cons.mp hid with rfl | hid
    · obtain rfl := Except.ok.inj hc
      obtain rfl : held = ⟨2⟩ := List.mem_singleton.mp hheld
      decide
    · obtain rfl := List.mem_singleton.mp hid
      obtain rfl := Except.ok.inj hc
      obtain rfl : held = ⟨1⟩ := List.mem_singleton.mp hheld
      decide
  have hacyclic : ∀ id, ¬TransGen (stacked.EmbedsWithin [⟨2⟩, ⟨1⟩, ⟨0⟩]) id id := by
    intro id hcircle
    have hlt : TransGen (fun i j : UInt64 => i < j) id.index id.index :=
      hcircle.lift ClassId.index hlater
    rw [transGen_eq_self] at hlt
    exact UInt64.lt_irrefl _ hlt
  refine ⟨rfl, _, horder, hnodup, ?_, fun before after hsplit => ?_⟩
  · exact (hmem ⟨2⟩).mpr ⟨⟨⟨0⟩, List.mem_cons_self, (ReflTransGen.single houter).tail hinner⟩,
      _, rfl, rfl⟩
  · exact hbehind hacyclic before ⟨0⟩ after hsplit ⟨1⟩ _ houter rfl rfl

end Emitter.Program
