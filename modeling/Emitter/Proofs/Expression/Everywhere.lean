import Emitter.Program.Expr
import Mathlib.Tactic

/-!
# Expressions inside expressions

The operands of an expression, induction from operands to the whole, and properties that hold of an
expression and of everything in it.
-/

namespace Emitter.Program.Expr

/-- The operands of an expression, from left to right. -/
def children : Expr → List Expr
  | .literal .. | .var .. | .this _ | .const .. | .enumValue .. | .resource .. => []
  | .field obj _ _ | .property obj _ _ => [obj]
  | .call receiver _ args _ => receiver.toList ++ args
  | .index array position _ => [array, position]
  | .unary _ operand _ => [operand]
  | .binary left _ right _ => [left, right]
  | .select cond onTrue onFalse _ => [cond, onTrue, onFalse]
  | .interpolated parts _ _ => parts.map Part.arg

theorem sizeOf_lt_of_mem_children {e child : Expr} (h : child ∈ e.children) :
    sizeOf child < sizeOf e := by
  cases e with
  | call receiver callee args ty =>
      simp only [children, List.mem_append, Option.mem_toList] at h
      rcases h with h | h
      · obtain rfl : receiver = some child := h
        simp only [call.sizeOf_spec, Option.some.sizeOf_spec]
        omega
      · have := List.sizeOf_lt_of_mem h
        simp only [call.sizeOf_spec]
        omega
  | interpolated parts suffix ty =>
      simp only [children, List.mem_map] at h
      obtain ⟨⟨hole, arg⟩, hpart, rfl⟩ := h
      have := List.sizeOf_lt_of_mem hpart
      simp only [Part.mk.sizeOf_spec] at this
      simp only [Part.arg, interpolated.sizeOf_spec]
      omega
  | _ =>
      simp only [children, List.mem_cons, List.not_mem_nil, or_false] at h <;>
        rcases h with rfl | h <;> grind

/-- What holds of an expression whenever it holds of its operands holds of all expressions. -/
theorem inductOn {P : Expr → Prop} (h : ∀ e, (∀ child ∈ e.children, P child) → P e) (e : Expr) :
    P e :=
  h e fun child hchild =>
    have := sizeOf_lt_of_mem_children hchild
    inductOn h child
termination_by e

mutual

/-- The property holds of the expression and of everything in it. -/
def everywhere (p : Expr → Bool) : Expr → Bool
  | .literal value ty => p (.literal value ty)
  | .var name ty => p (.var name ty)
  | .this ty => p (.this ty)
  | .const owner name ty => p (.const owner name ty)
  | .enumValue id i ty => p (.enumValue id i ty)
  | .field obj name ty => p (.field obj name ty) && everywhere p obj
  | .property obj accessor ty => p (.property obj accessor ty) && everywhere p obj
  | .call receiver callee args ty =>
    p (.call receiver callee args ty) && everywhereReceiver p receiver && everywhereArgs p args
  | .index array position ty =>
    p (.index array position ty) && everywhere p array && everywhere p position
  | .unary op operand ty => p (.unary op operand ty) && everywhere p operand
  | .binary left op right ty =>
    p (.binary left op right ty) && everywhere p left && everywhere p right
  | .select cond onTrue onFalse ty =>
    p (.select cond onTrue onFalse ty) && everywhere p cond && everywhere p onTrue &&
      everywhere p onFalse
  | .interpolated parts suffix ty => p (.interpolated parts suffix ty) && everywhereParts p parts
  | .resource name ty => p (.resource name ty)

def everywhereReceiver (p : Expr → Bool) : Option Expr → Bool
  | none => true
  | some e => everywhere p e

def everywhereArgs (p : Expr → Bool) : List Expr → Bool
  | [] => true
  | e :: rest => everywhere p e && everywhereArgs p rest

def everywhereParts (p : Expr → Bool) : List Part → Bool
  | [] => true
  | .mk _ e :: rest => everywhere p e && everywhereParts p rest

end

variable {p : Expr → Bool}

theorem everywhereArgs_iff {args : List Expr} :
    everywhereArgs p args = true ↔ ∀ e ∈ args, e.everywhere p = true := by
  induction args with
  | nil => simp [everywhereArgs]
  | cons e rest ih => simp [everywhereArgs, ih]

theorem everywhereParts_iff {parts : List Part} :
    everywhereParts p parts = true ↔ ∀ part ∈ parts, part.arg.everywhere p = true := by
  induction parts with
  | nil => simp [everywhereParts]
  | cons part rest ih =>
      cases part
      simp [everywhereParts, ih, Part.arg]

theorem everywhere_iff {e : Expr} : e.everywhere p = true ↔
    p e = true ∧ ∀ child ∈ e.children, child.everywhere p = true := by
  cases e with
  | call receiver callee args ty =>
      cases receiver <;>
        simp [everywhere, everywhereReceiver, everywhereArgs_iff, children, and_assoc]
  | _ => simp [everywhere, everywhereParts_iff, children, and_assoc]

end Emitter.Program.Expr
