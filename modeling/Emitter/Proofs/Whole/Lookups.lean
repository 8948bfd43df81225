import Emitter.Program.Storage
import Emitter.Proofs.Expression.Operations
import Emitter.Proofs.Statement.Children

/-!
# Look-ups that cannot fail

A result is proper if it is a value or a refusal. Looking a declaration up is proper where the
reference points at one, and the searches for what has to be constructed or laid out only look up
classes that declared types refer to.
-/

namespace Emitter

open Layout Number Program

/-- The result is a value or a refusal, and not a fault that no program that loaded meets. -/
def Proper {α : Type} (r : Result α) : Prop :=
  ∀ fault, r = .error fault → ∃ refusal, fault = .refused refusal

section Results

variable {α β : Type}

@[simp] theorem proper_ok (a : α) : Proper (.ok a) := nofun

@[simp] theorem proper_pure (a : α) : Proper (pure a) := nofun

@[simp] theorem proper_refused (refusal : Refusal) :
    Proper (.error (.refused refusal) : Result α) := by
  rintro fault h
  exact ⟨refusal, (Except.error.inj h).symm⟩

@[simp] theorem proper_unsupported (cx : Context) (feature : Feature) :
    Proper (cx.unsupported feature : Result α) := proper_refused _

@[simp] theorem proper_unmappedType (cx : Context) (ty : Ty) :
    Proper (cx.unmappedType ty : Result α) := proper_refused _

@[simp] theorem proper_unmappedMethod (cx : Context) (m : BuiltinMethod) :
    Proper (cx.unmappedMethod m : Result α) := proper_refused _

@[simp] theorem proper_bind {x : Result α} {next : α → Result β} :
    Proper (x >>= next) ↔ Proper x ∧ ∀ a, x = .ok a → Proper (next a) := by
  cases x with
  | ok a => simp [bind, Except.bind]
  | error fault => simp [bind, Except.bind, Proper]

@[simp] theorem proper_map {x : Result α} {f : α → β} : Proper (x.map f) ↔ Proper x := by
  cases x <;> simp [Except.map, Proper]

@[simp] theorem proper_functor_map {x : Result α} {f : α → β} : Proper (f <$> x) ↔ Proper x :=
  proper_map

@[simp] theorem proper_ite {c : Prop} [Decidable c] {x y : Result α} :
    Proper (if c then x else y) ↔ (c → Proper x) ∧ (¬c → Proper y) := by
  split_ifs with h <;> simp [h]

theorem proper_mapM {f : α → Result β} {items : List α} (h : ∀ item ∈ items, Proper (f item)) :
    Proper (items.mapM f) := by
  induction items with
  | nil => exact proper_ok []
  | cons item rest ih =>
      obtain ⟨hitem, hrest⟩ := List.forall_mem_cons.mp h
      simp [hitem, ih hrest]

end Results

namespace Program

/-- Every reference in the list points at a declaration. -/
def Resolves (p : Program) (ids : List SymbolId) : Prop := ∀ id ∈ ids, p.declares id = true

variable {p : Program}

@[simp] theorem resolves_nil : p.Resolves [] := by simp [Resolves]

@[simp] theorem resolves_cons {id : SymbolId} {ids : List SymbolId} :
    p.Resolves (id :: ids) ↔ p.declares id = true ∧ p.Resolves ids := by simp [Resolves]

@[simp] theorem resolves_append {as bs : List SymbolId} :
    p.Resolves (as ++ bs) ↔ p.Resolves as ∧ p.Resolves bs := by
  simp [Resolves, or_imp, forall_and]

@[simp] theorem resolves_flatMap {α : Type} {items : List α} {f : α → List SymbolId} :
    p.Resolves (items.flatMap f) ↔ ∀ item ∈ items, p.Resolves (f item) := by
  simp only [Resolves, List.mem_flatMap]
  constructor
  · intro h item hitem id hid
    exact h id ⟨item, hitem, hid⟩
  · rintro h id ⟨item, hitem, hid⟩
    exact h item hitem id hid

@[simp] theorem resolves_receiverMentions {receiver : Option Expr} :
    p.Resolves (receiverMentions receiver) ↔ ∀ e ∈ receiver, p.Resolves e.mentions := by
  cases receiver <;> simp [receiverMentions]

@[simp] theorem resolves_clauseMentions {clause : Option Stmt} :
    p.Resolves (clauseMentions clause) ↔ ∀ s ∈ clause, p.Resolves s.mentions := by
  cases clause <;> simp [clauseMentions]

@[simp] theorem resolves_blockMentions {stmts : List Stmt} :
    p.Resolves (blockMentions stmts) ↔ ∀ s ∈ stmts, p.Resolves s.mentions := by
  induction stmts with
  | nil => simp [blockMentions]
  | cons s rest ih => simp [blockMentions, ih]

theorem exists_classOf {id : ClassId} (h : p.declares (.classDef id) = true) :
    ∃ c ∈ p.classes, p.classOf id = .ok c := by
  have hlt : id.index.toNat < p.classes.length := by simpa [declares] using h
  exact ⟨_, List.getElem_mem hlt, by simp [classOf, List.getElem?_eq_getElem hlt]⟩

theorem exists_enumOf {id : EnumId} (h : p.declares (.enumeration id) = true) :
    ∃ e ∈ p.enums, p.enumOf id = .ok e := by
  have hlt : id.index.toNat < p.enums.length := by simpa [declares] using h
  exact ⟨_, List.getElem_mem hlt, by simp [enumOf, List.getElem?_eq_getElem hlt]⟩

/-- Every reference in the program points at a declaration. -/
def Whole (p : Program) : Prop := p.Resolves p.mentions

theorem Whole.global (h : p.Whole) {id : SymbolId} (hid : id ∈ p.globals) :
    p.declares id = true := by
  have h : p.Resolves (p.globals ++ p.classes.flatMap (·.mentions)) := h
  exact (resolves_append.mp h).1 id hid

theorem Whole.classDef (h : p.Whole) {c : ClassDef} (hc : c ∈ p.classes) :
    p.Resolves c.mentions := by
  have h : p.Resolves (p.globals ++ p.classes.flatMap (·.mentions)) := h
  exact resolves_flatMap.mp (resolves_append.mp h).2 c hc

theorem Whole.member (h : p.Whole) {c : ClassDef} (hc : c ∈ p.classes) {m : Member}
    (hm : m ∈ c.members) : p.Resolves m.mentions := by
  have h := h.classDef hc
  simp only [ClassDef.mentions, resolves_append, resolves_flatMap] at h
  exact h.1.2 m hm

theorem Whole.table (h : p.Whole) {c : ClassDef} (hc : c ∈ p.classes) {k : ConstDef}
    (hk : k ∈ c.constArrays) : p.Resolves k.mentions := by
  have h := h.classDef hc
  simp only [ClassDef.mentions, resolves_append, resolves_flatMap] at h
  exact h.2 k hk

theorem Whole.constructor (h : p.Whole) {c : ClassDef} (hc : c ∈ p.classes) :
    ∀ s ∈ c.constructor?.getD [], p.Resolves s.mentions := by
  have h := h.classDef hc
  simp only [ClassDef.mentions, resolves_append, resolves_blockMentions] at h
  exact h.1.1

theorem Whole.const (h : p.Whole) {c : ClassDef} (hc : c ∈ p.classes) {k : ConstDef}
    (hk : k ∈ c.consts) : p.Resolves k.mentions := by
  obtain ⟨m, hm, hk⟩ := List.mem_filterMap.mp hk
  cases m with
  | const k' =>
      obtain rfl := Option.some.inj hk
      exact h.member hc hm
  | _ => simp at hk

theorem Whole.field (h : p.Whole) {c : ClassDef} (hc : c ∈ p.classes) {f : FieldDef}
    (hf : f ∈ c.fields) : p.Resolves f.ty.mentions ∧ ∀ e ∈ f.value, p.Resolves e.mentions := by
  obtain ⟨m, hm, hf⟩ := List.mem_filterMap.mp hf
  cases m with
  | field f' =>
      obtain rfl := Option.some.inj hf
      simpa [Member.mentions] using h.member hc hm
  | _ => simp at hf

theorem Whole.method (h : p.Whole) {c : ClassDef} (hc : c ∈ p.classes) {m : MethodDef}
    (hm : m ∈ c.methods) : p.Resolves m.returnType.mentions ∧
      (∀ param ∈ m.params, p.Resolves param.ty.mentions) ∧
        ∀ s ∈ m.body, p.Resolves s.mentions := by
  obtain ⟨member, hmember, hm⟩ := List.mem_filterMap.mp hm
  cases member with
  | method m' =>
      obtain rfl := Option.some.inj hm
      simpa [Member.mentions, and_assoc] using h.member hc hmember
  | _ => simp at hm

/-- A type refers to the class that its values hold in place. -/
theorem declares_heldClass {ty : Ty} {id : ClassId} (h : p.Resolves ty.mentions)
    (hheld : ty.heldClass = some id) : p.declares (.classDef id) = true := by
  induction ty with
  | classStorage c =>
      obtain rfl := Option.some.inj hheld
      simpa [Ty.mentions] using h
  | array element storage length ih =>
      cases storage with
      | true => exact ih h hheld
      | false => simp [Ty.heldClass] at hheld
  | _ => simp [Ty.heldClass] at hheld

theorem Whole.heldClasses (h : p.Whole) {c : ClassDef} (hc : c ∈ p.classes) {id : ClassId}
    (hid : id ∈ c.heldClasses) : p.declares (.classDef id) = true := by
  obtain ⟨f, hf, hheld⟩ := List.mem_filterMap.mp hid
  exact declares_heldClass (h.field hc hf).1 hheld

theorem exists_anyM {α : Type} {f : α → Except SymbolId Bool} {items : List α}
    (h : ∀ item ∈ items, ∃ b, f item = .ok b) : ∃ b, items.anyM f = .ok b := by
  induction items with
  | nil => exact ⟨false, rfl⟩
  | cons item rest ih =>
      obtain ⟨⟨b, hb⟩, hrest⟩ := List.forall_mem_cons.mp h
      obtain ⟨b', hb'⟩ := ih hrest
      cases b with
      | true => exact ⟨true, by simp [List.anyM, hb, bind, Except.bind, pure, Except.pure]⟩
      | false => exact ⟨b', by simp [List.anyM, hb, hb', bind, Except.bind]⟩

/-- A walk over items that keeps an invariant. -/
theorem exists_foldlM {α σ : Type} {f : σ → α → Except SymbolId σ} {I : σ → Prop} {items : List α}
    (h : ∀ item ∈ items, ∀ s, I s → ∃ s', f s item = .ok s' ∧ I s') {s : σ} (hs : I s) :
    ∃ s', items.foldlM f s = .ok s' ∧ I s' := by
  induction items generalizing s with
  | nil => exact ⟨s, rfl, hs⟩
  | cons item rest ih =>
      obtain ⟨hitem, hrest⟩ := List.forall_mem_cons.mp h
      obtain ⟨s', hstep, hs'⟩ := hitem s hs
      obtain ⟨s'', hrun, hs''⟩ := ih hrest hs'
      exact ⟨s'', by simp [List.foldlM_cons, hstep, hrun, bind, Except.bind], hs''⟩

theorem Whole.constructsWithin (h : p.Whole) (fuel : Nat) {id : ClassId}
    (hid : p.declares (.classDef id) = true) : ∃ b, p.constructsWithin fuel id = .ok b := by
  induction fuel generalizing id with
  | zero => exact ⟨false, rfl⟩
  | succ fuel ih =>
      obtain ⟨c, hc, hclass⟩ := exists_classOf hid
      obtain ⟨b, hb⟩ := exists_anyM fun held hheld => ih (h.heldClasses hc hheld)
      rw [Program.constructsWithin, hclass]
      simp only [bind, Except.bind]
      split_ifs
      · exact ⟨true, rfl⟩
      · exact ⟨b, hb⟩

theorem Whole.needsConstruction (h : p.Whole) {id : ClassId}
    (hid : p.declares (.classDef id) = true) : ∃ b, p.needsConstruction id = .ok b :=
  h.constructsWithin _ hid

theorem Whole.holdsConstructed (h : p.Whole) {ty : Ty} (hty : p.Resolves ty.mentions) :
    ∃ b, p.holdsConstructed ty = .ok b := by
  unfold Program.holdsConstructed
  split
  case h_1 id hheld => exact h.needsConstruction (declares_heldClass hty hheld)
  case h_2 => exact ⟨false, rfl⟩

/-- The classes that a walk has laid out are all there. -/
def LayoutWalk.Declared (p : Program) (walk : LayoutWalk) : Prop :=
  ∀ id ∈ walk.order, p.declares (.classDef id) = true

theorem Whole.layOut (h : p.Whole) (fuel : Nat) {walk : LayoutWalk} {id : ClassId}
    (hwalk : walk.Declared p) (hid : p.declares (.classDef id) = true) :
    ∃ walk', p.layOut fuel walk id = .ok walk' ∧ walk'.Declared p := by
  induction fuel generalizing walk id with
  | zero => exact ⟨walk, rfl, hwalk⟩
  | succ fuel ih =>
      rw [Program.layOut]
      split_ifs
      · exact ⟨walk, rfl, hwalk⟩
      · obtain ⟨c, hc, hclass⟩ := exists_classOf hid
        have hentered : LayoutWalk.Declared p { walk with entered := id :: walk.entered } := hwalk
        obtain ⟨inner, hrun, hinner⟩ := exists_foldlM
          (fun held hheld walk hwalk => ih hwalk (h.heldClasses hc hheld)) hentered
        simp only [hclass, hrun, bind, Except.bind]
        split_ifs
        · exact ⟨_, rfl, hinner⟩
        · refine ⟨_, rfl, fun i hi => ?_⟩
          simp only [List.mem_append, List.mem_singleton] at hi
          rcases hi with hi | rfl
          · exact hinner i hi
          · exact hid

theorem Whole.globalClassIds (h : p.Whole) {id : ClassId} (hid : id ∈ p.globalClassIds) :
    p.declares (.classDef id) = true := by
  obtain ⟨symbol, hsymbol, hid⟩ := List.mem_filterMap.mp hid
  cases symbol with
  | enumeration => simp at hid
  | classDef c =>
      obtain rfl := Option.some.inj hid
      exact h.global hsymbol

theorem Whole.globalEnumIds (h : p.Whole) {id : EnumId} (hid : id ∈ p.globalEnumIds) :
    p.declares (.enumeration id) = true := by
  obtain ⟨symbol, hsymbol, hid⟩ := List.mem_filterMap.mp hid
  cases symbol with
  | classDef => simp at hid
  | enumeration e =>
      obtain rfl := Option.some.inj hid
      exact h.global hsymbol

theorem Whole.layoutOrder (h : p.Whole) :
    ∃ order, p.layoutOrder = .ok order ∧ ∀ id ∈ order, p.declares (.classDef id) = true := by
  have hempty : LayoutWalk.Declared p ⟨[], []⟩ := by simp [LayoutWalk.Declared]
  obtain ⟨walk, hrun, hwalk⟩ := exists_foldlM
    (fun id hid walk hwalk => h.layOut (p.classes.length + 1) hwalk (h.globalClassIds hid)) hempty
  exact ⟨walk.order, by simp [Program.layoutOrder, hrun, bind, Except.bind, pure, Except.pure],
    hwalk⟩

theorem exists_mapM_ok {α β : Type} {f : α → Except SymbolId β} {Q : β → Prop} {items : List α}
    (h : ∀ item ∈ items, ∃ b, f item = .ok b ∧ Q b) :
    ∃ bs, items.mapM f = .ok bs ∧ ∀ b ∈ bs, Q b := by
  induction items with
  | nil => exact ⟨[], rfl, by simp⟩
  | cons item rest ih =>
      obtain ⟨⟨b, hb, hQ⟩, hrest⟩ := List.forall_mem_cons.mp h
      obtain ⟨bs, hbs, hQs⟩ := ih hrest
      refine ⟨b :: bs, ?_, List.forall_mem_cons.mpr ⟨hQ, hQs⟩⟩
      simp [hb, hbs, bind, Except.bind, pure, Except.pure]

theorem Whole.globalClasses (h : p.Whole) : ∃ classes, p.globalClasses = .ok classes ∧
    ∀ entry ∈ classes, p.declares (.classDef entry.1) = true ∧ entry.2 ∈ p.classes := by
  refine exists_mapM_ok fun id hid => ?_
  have hid := h.globalClassIds hid
  obtain ⟨c, hc, hclass⟩ := exists_classOf hid
  exact ⟨(id, c), by simp [hclass, bind, Except.bind, pure, Except.pure], hid, hc⟩

theorem Whole.globalEnums (h : p.Whole) : ∃ enums, p.globalEnums = .ok enums := by
  obtain ⟨enums, henums, -⟩ := exists_mapM_ok (f := fun id => do return (id, ← p.enumOf id))
    (Q := fun _ => True) fun id hid => by
      obtain ⟨e, -, henum⟩ := exists_enumOf (h.globalEnumIds hid)
      exact ⟨(id, e), by simp [henum, bind, Except.bind, pure, Except.pure], trivial⟩
  exact ⟨enums, henums⟩

end Program

end Emitter
