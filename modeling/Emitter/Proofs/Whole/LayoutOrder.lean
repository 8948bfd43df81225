import Emitter.Proofs.Whole.Lookups
import Mathlib.Logic.Relation

/-!
# The order of layouts

Layouts are ordered by a walk that enters a class, walks on to those it holds, and lays it out when
they are done. A class that is held by value is therefore laid out before its holder, unless it is
still open when the holder is done: then it holds its holder in turn.
-/

namespace Emitter.Program

open Relation

variable {p : Program} {id held : ClassId} {active ids : List ClassId} {walk walk' : LayoutWalk}

/-- Instances of the class have one of the other class in place. -/
def Holds (p : Program) (id held : ClassId) : Prop :=
  ∃ c, p.classOf id = .ok c ∧ held ∈ c.heldClasses

/-- The class is there and is not static. -/
def HasInstances (p : Program) (id : ClassId) : Prop :=
  ∃ c, p.classOf id = .ok c ∧ c.isStatic = false

/-- No more classes are different than there are. -/
theorem length_le_of_nodup (hnodup : ids.Nodup)
    (hdeclared : ∀ id ∈ ids, p.declares (.classDef id) = true) :
    ids.length ≤ p.classes.length := by
  have hinjective : Function.Injective fun id : ClassId => id.index.toNat := fun a b hab => by
    cases a
    cases b
    simpa using UInt64.toNat_inj.mp hab
  have hsubset : ids.map (fun id => id.index.toNat) ⊆ List.range p.classes.length := by
    intro index hindex
    obtain ⟨id, hid, rfl⟩ := List.mem_map.mp hindex
    simpa [declares] using hdeclared id hid
  simpa using (List.subperm_of_subset (hnodup.map hinjective) hsubset).length_le

namespace LayoutWalk

/-- What holds of a walk that has not left the active classes yet: all others that it has entered
are laid out if they have instances, and behind those they hold. -/
structure Sound (p : Program) (active : List ClassId) (walk : LayoutWalk) : Prop where
  nodup : walk.entered.Nodup
  declared : ∀ id ∈ walk.entered, p.declares (.classDef id) = true
  finished : ∀ id ∈ walk.entered, id ∉ active → p.HasInstances id → id ∈ walk.order
  ordered : ∀ before id after, walk.order = before ++ id :: after → ∀ held, p.Holds id held →
    p.HasInstances held → held ∈ before ∨ TransGen p.Holds held id

/-- The walk has gone on past the classes. -/
structure Passes (p : Program) (active ids : List ClassId) (walk walk' : LayoutWalk) : Prop where
  sound : walk'.Sound p active
  entered : walk.entered <:+ walk'.entered
  passed : ∀ id ∈ ids, id ∈ walk'.entered

theorem Sound.length_le (h : walk.Sound p active) : walk.entered.length ≤ p.classes.length :=
  length_le_of_nodup h.nodup h.declared

theorem Sound.enter (h : walk.Sound p active) (hid : p.declares (.classDef id) = true)
    (hnew : id ∉ walk.entered) :
    Sound p (id :: active) { walk with entered := id :: walk.entered } where
  nodup := List.nodup_cons.mpr ⟨hnew, h.nodup⟩
  declared := List.forall_mem_cons.mpr ⟨hid, h.declared⟩
  finished i hi hactive := by
    obtain ⟨hne, hactive⟩ := not_or.mp (mt List.mem_cons.mpr hactive)
    exact h.finished i ((List.mem_cons.mp hi).resolve_left hne) hactive
  ordered := h.ordered

/-- A static class is left without a layout. -/
theorem Sound.leave (h : walk.Sound p (id :: active)) (hid : ¬p.HasInstances id) :
    walk.Sound p active where
  nodup := h.nodup
  declared := h.declared
  finished i hi hactive hinstances := h.finished i hi (by
    rintro (_ | ⟨_, hmem⟩)
    · exact hid hinstances
    · exact hactive hmem) hinstances
  ordered := h.ordered

/-- A class is laid out behind those it holds, but for those that are active. -/
theorem Sound.close (h : walk.Sound p (id :: active))
    (hactive : ∀ i ∈ active, TransGen p.Holds i id)
    (hheld : ∀ held, p.Holds id held → held ∈ walk.entered) :
    Sound p active { walk with order := walk.order ++ [id] } where
  nodup := h.nodup
  declared := h.declared
  finished i hi hactive hinstances := by
    by_cases heq : i = id
    · exact List.mem_append_right _ (List.mem_singleton.mpr heq)
    · exact List.mem_append_left _
        (h.finished i hi
          (fun hmem => hactive ((List.mem_cons.mp hmem).resolve_left heq)) hinstances)
  ordered before i after hsplit held hholds hinstances := by
    rcases List.eq_nil_or_concat after with rfl | ⟨after, last, rfl⟩
    · obtain ⟨rfl, hid⟩ := List.append_inj' hsplit rfl
      obtain rfl := List.singleton_inj.mp hid
      by_cases hopen : held ∈ id :: active
      · rcases List.mem_cons.mp hopen with rfl | hmem
        · exact .inr (.single hholds)
        · exact .inr (hactive held hmem)
      · exact .inl (h.finished held (hheld held hholds) hopen hinstances)
    · have hsplit : walk.order ++ [id] = (before ++ i :: after) ++ [last] := by simpa using hsplit
      exact h.ordered before i after (List.append_inj' hsplit rfl).1 held hholds hinstances

theorem Passes.trans {walk'' : LayoutWalk} (h : walk.Passes p active [id] walk')
    (h' : walk'.Passes p active ids walk'') : walk.Passes p active (id :: ids) walk'' where
  sound := h'.sound
  entered := h.entered.trans h'.entered
  passed := List.forall_mem_cons.mpr ⟨h'.entered.subset (h.passed id List.mem_cons_self), h'.passed⟩

end LayoutWalk

/-- There is fuel for as many classes as have not been entered. -/
def LayoutWalk.Lasts (p : Program) (walk : LayoutWalk) (fuel : Nat) : Prop :=
  p.classes.length < walk.entered.length + fuel

theorem exists_passes_foldlM {f : LayoutWalk → ClassId → Except SymbolId LayoutWalk} {fuel : Nat}
    (hf : ∀ id ∈ ids, ∀ walk : LayoutWalk, walk.Sound p active → walk.Lasts p fuel →
      ∃ walk', f walk id = .ok walk' ∧ walk.Passes p active [id] walk')
    (hsound : walk.Sound p active) (hfuel : walk.Lasts p fuel) :
    ∃ walk', ids.foldlM f walk = .ok walk' ∧ walk.Passes p active ids walk' := by
  induction ids generalizing walk with
  | nil => exact ⟨walk, rfl, hsound, List.suffix_refl _, by simp⟩
  | cons id rest ih =>
      obtain ⟨hid, hrest⟩ := List.forall_mem_cons.mp hf
      obtain ⟨first, hfirst, hpasses⟩ := hid walk hsound hfuel
      have hlasts : first.Lasts p fuel :=
        lt_of_lt_of_le hfuel (Nat.add_le_add_right hpasses.entered.length_le fuel)
      obtain ⟨walk', hrun, hall⟩ := ih hrest hpasses.sound hlasts
      exact ⟨walk', by simp [List.foldlM_cons, hfirst, hrun, bind, Except.bind], hpasses.trans hall⟩

/-- A walk goes on past a class that all active classes hold. -/
theorem Whole.exists_passes (h : p.Whole) {fuel : Nat} (hsound : walk.Sound p active)
    (hfuel : walk.Lasts p fuel) (hid : p.declares (.classDef id) = true)
    (hactive : ∀ i ∈ active, TransGen p.Holds i id) :
    ∃ walk', p.layOut fuel walk id = .ok walk' ∧ walk.Passes p active [id] walk' := by
  induction fuel generalizing walk id active with
  | zero => exact absurd hfuel (Nat.not_lt.mpr hsound.length_le)
  | succ fuel ih =>
      rw [Program.layOut]
      split_ifs with hentered
      · exact ⟨walk, rfl, hsound, List.suffix_refl _, by simpa using hentered⟩
      · obtain ⟨c, hc, hclass⟩ := exists_classOf hid
        have hholds : ∀ held ∈ c.heldClasses, p.Holds id held :=
          fun held hheld => ⟨c, hclass, hheld⟩
        have hlasts : LayoutWalk.Lasts p { walk with entered := id :: walk.entered } fuel := by
          simp only [LayoutWalk.Lasts, List.length_cons] at hfuel ⊢
          omega
        obtain ⟨inner, hrun, hpasses⟩ := exists_passes_foldlM
          (fun held hheld walk hsound hlasts => ih hsound hlasts (h.heldClasses hc hheld)
            (List.forall_mem_cons.mpr ⟨.single (hholds held hheld), fun i hi =>
              (hactive i hi).tail (hholds held hheld)⟩))
          (hsound.enter hid hentered) hlasts
        have hsuffix : walk.entered <:+ inner.entered :=
          (List.suffix_cons id walk.entered).trans hpasses.entered
        have hmem : id ∈ inner.entered := hpasses.entered.subset List.mem_cons_self
        simp only [hclass, hrun, bind, Except.bind]
        split_ifs with hstatic
        · refine ⟨_, rfl, hpasses.sound.leave ?_, hsuffix, by simpa using hmem⟩
          rintro ⟨c', hc', hstatic'⟩
          obtain rfl := Except.ok.inj (hclass.symm.trans hc')
          simp [hstatic] at hstatic'
        · refine ⟨_, rfl, hpasses.sound.close hactive ?_, hsuffix, by simpa using hmem⟩
          rintro held ⟨c', hc', hheld⟩
          obtain rfl := Except.ok.inj (hclass.symm.trans hc')
          exact hpasses.passed held hheld

/-- Every class that the top-level symbols list and that is not static is laid out, and behind the
classes it holds, but for those that hold it in turn. -/
theorem Whole.layoutOrder_sound (h : p.Whole) : ∃ order, p.layoutOrder = .ok order ∧
    (∀ id ∈ p.globalClassIds, p.HasInstances id → id ∈ order) ∧
    ∀ before id after, order = before ++ id :: after → ∀ held, p.Holds id held →
      p.HasInstances held → held ∈ before ∨ TransGen p.Holds held id := by
  have hstart : LayoutWalk.Sound p [] ⟨[], []⟩ := ⟨.nil, by simp, by simp, by simp⟩
  obtain ⟨walk, hrun, hpasses⟩ := exists_passes_foldlM
    (fun id hid walk hsound hlasts =>
      h.exists_passes hsound hlasts (h.globalClassIds hid) (by simp))
    hstart (show LayoutWalk.Lasts p ⟨[], []⟩ (p.classes.length + 1) by simp [LayoutWalk.Lasts])
  refine ⟨walk.order, ?_, fun id hid => ?_, hpasses.sound.ordered⟩
  · simp [Program.layoutOrder, hrun, bind, Except.bind, pure, Except.pure]
  · exact hpasses.sound.finished id (hpasses.passed id hid) (by simp)

end Emitter.Program
