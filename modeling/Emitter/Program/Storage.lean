import Emitter.Program.Lookup

/-!
# Instances held in place

A class holds another one by value through a field of storage type. Two questions follow that
relation: which classes need a function that constructs their instances, and in which order the
layouts have to be printed so that every held one is complete before its holder. Both searches
end on programs whose classes hold each other in a circle.
-/

namespace Emitter.Program

/-- The classes the fields hold by value, in declaration order. -/
def ClassDef.heldClasses (c : ClassDef) : List ClassId :=
  c.fields.filterMap (·.ty.heldClass)

/-- Constructing an instance does something by itself, not only through what it holds. -/
def ClassDef.initializes (c : ClassDef) : Bool :=
  c.constructor?.isSome || c.fields.any (·.value.isSome)

/-- The search for a class that initializes something, along chains of at most `fuel` classes. -/
def constructsWithin (p : Program) : Nat → ClassId → Except SymbolId Bool
  | 0, _ => .ok false
  | fuel + 1, id => do
    let c ← p.classOf id
    if c.initializes then return true
    c.heldClasses.anyM (p.constructsWithin fuel)

/-- Constructing an instance of the class takes more than filling it with zeros. A chain that
leads to such a class without repeating one is no longer than the list of classes. -/
def needsConstruction (p : Program) (id : ClassId) : Except SymbolId Bool :=
  p.constructsWithin (p.classes.length + 1) id

/-- A value of the type holds by value a class that needs construction. -/
def holdsConstructed (p : Program) (ty : Ty) : Except SymbolId Bool :=
  match ty.heldClass with
  | some id => p.needsConstruction id
  | none => .ok false

/-- The progress of a walk over the classes: those entered, and those laid out, in order. -/
structure LayoutWalk where
  entered : List ClassId
  order : List ClassId

/-- Lays out a class after the classes it holds, unless it was entered before. -/
def layOut (p : Program) : Nat → LayoutWalk → ClassId → Except SymbolId LayoutWalk
  | 0, walk, _ => .ok walk
  | fuel + 1, walk, id => do
    if id ∈ walk.entered then return walk
    let c ← p.classOf id
    let inner ← c.heldClasses.foldlM (p.layOut fuel) { walk with entered := id :: walk.entered }
    if c.isStatic then return inner
    return { inner with order := inner.order ++ [id] }

/-- The classes with instances that the top-level symbols reach, each after those it holds. -/
def layoutOrder (p : Program) : Except SymbolId (List ClassId) := do
  let walk ← p.globalClassIds.foldlM (p.layOut (p.classes.length + 1)) ⟨[], []⟩
  return walk.order

end Emitter.Program
