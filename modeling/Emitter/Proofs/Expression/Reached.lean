import Emitter.Proofs.Expression.Effects

/-!
# The effects that C reaches

In the C family a static method is called by its name alone, so a receiver that such a call is given
in the source is not printed. All other operands are. What is lost is what the receivers of static
calls do, which is nothing exactly if none of them has an effect.
-/

namespace Emitter

open Program

namespace Program

def Callee.isStatic : Callee → Bool
  | user _ _ isStatic => isStatic
  | builtin _ => false

namespace Expr

/-- The operation with an effect that the expression itself is, apart from its operands. -/
def ownEffects : Expr → Multiset Operation
  | .call _ callee _ _ => if callee.hasSideEffect then {.call callee} else 0
  | .unary op _ _ => if op.mutates then {.change op} else 0
  | _ => 0

mutual

/-- The effects of an expression without those in the receivers of static calls. -/
def reached : Expr → Multiset Operation
  | .literal .. | .var .. | .this _ | .const .. | .enumValue .. | .resource .. => 0
  | .field obj _ _ | .property obj _ _ => reached obj
  | .call receiver callee args ty =>
    ownEffects (.call receiver callee args ty) +
      ((if callee.isStatic then 0 else receiverReached receiver) + argsReached args)
  | .index array position _ => reached array + reached position
  | .unary op operand ty => ownEffects (.unary op operand ty) + reached operand
  | .binary left _ right _ => reached left + reached right
  | .select cond onTrue onFalse _ => reached cond + reached onTrue + reached onFalse
  | .interpolated parts _ _ => partsReached parts

def receiverReached : Option Expr → Multiset Operation
  | none => 0
  | some e => reached e

def argsReached : List Expr → Multiset Operation
  | [] => 0
  | e :: rest => reached e + argsReached rest

def partsReached : List Part → Multiset Operation
  | [] => 0
  | .mk _ arg :: rest => reached arg + partsReached rest

end

/-- The operands that are printed with the expression in C. -/
def printedOperands : Expr → List Expr
  | .call receiver callee args _ => (if callee.isStatic then [] else receiver.toList) ++ args
  | e => e.children

/-- A receiver of a static call has no effect. -/
def losesNothing : Expr → Bool
  | .call (some obj) (.user _ _ true) _ _ => !obj.hasSideEffect
  | _ => true

variable {e : Expr}

theorem receiverReached_eq (receiver : Option Expr) :
    receiverReached receiver = (receiver.toList.map reached).sum := by
  cases receiver <;> simp [receiverReached]

theorem argsReached_eq (args : List Expr) : argsReached args = (args.map reached).sum := by
  induction args with
  | nil => rfl
  | cons e rest ih => simp [argsReached, ih]

theorem partsReached_eq (parts : List Part) :
    partsReached parts = ((parts.map Part.arg).map reached).sum := by
  induction parts with
  | nil => rfl
  | cons part rest ih =>
      cases part
      simp [partsReached, Part.arg, ih]

theorem reached_eq (e : Expr) :
    e.reached = e.ownEffects + (e.printedOperands.map reached).sum := by
  cases e with
  | call receiver callee args ty =>
      rw [reached, receiverReached_eq, argsReached_eq, printedOperands]
      split_ifs <;> simp
  | interpolated parts suffix ty =>
      simp [reached, partsReached_eq, printedOperands, children, ownEffects]
  | _ => simp [reached, ownEffects, printedOperands, children, add_assoc]

theorem coe_flatMap_effects (es : List Expr) : (es.flatMap effects : Multiset Operation) =
    (es.map fun e => (e.effects : Multiset Operation)).sum := by
  induction es with
  | nil => rfl
  | cons e es ih => rw [List.flatMap_cons, ← Multiset.coe_add, ih, List.map_cons, List.sum_cons]

theorem coe_effects (e : Expr) : (e.effects : Multiset Operation) =
    e.ownEffects + (e.children.map fun child => (child.effects : Multiset Operation)).sum := by
  rw [← coe_flatMap_effects]
  cases e with
  | call receiver callee args ty =>
      have hown : (([Operation.call callee].filter Operation.hasEffect : List Operation) :
          Multiset Operation) = ownEffects (.call receiver callee args ty) := by
        cases h : callee.hasSideEffect <;> simp [ownEffects, Operation.hasEffect, h]
      have hoperations : (operations (fun _ => false) (.call receiver callee args ty)) =
          (receiver.toList ++ args).flatMap (operations fun _ => false) ++ [.call callee] := by
        by_cases hcase : ∃ start length, callee = .builtin .substring ∧ args = [start, length]
        · obtain ⟨start, length, rfl, rfl⟩ := hcase
          simp [operations_substring]
        · exact operations_call fun start length hc ha => hcase ⟨start, length, hc, ha⟩
      rw [effects, hoperations, List.filter_append, filter_flatMap_operations fun _ _ => rfl,
        ← Multiset.coe_add, hown, add_comm, children]
  | unary op operand ty =>
      cases op <;> simp [effects, operations, ownEffects, children, UnaryOp.isPostfix,
        UnaryOp.mutates, Operation.hasEffect, List.filter_cons, ← Multiset.coe_add, add_comm,
        ← Multiset.cons_coe, ← Multiset.singleton_add]
  | interpolated parts suffix ty =>
      rw [effects, operations, partOperations_eq, filter_flatMap_operations fun _ _ => rfl]
      simp [ownEffects, children]
  | binary left op right ty =>
      have hquotient : ([Operation.quotient].filter Operation.hasEffect) = [] := rfl
      simp only [effects, operations, List.filter_append]
      split_ifs <;> simp [hquotient, ownEffects, children, effects]
  | _ => simp [effects, operations, ownEffects, children]

/-! An effect is lost only below a static call, whose receiver is not printed. -/

/-- An expression has an effect if it is one itself or an operand has one. -/
theorem ownEffects_or_of_hasSideEffect (h : e.hasSideEffect = true) :
    e.ownEffects ≠ 0 ∨ ∃ child ∈ e.children, child.hasSideEffect = true := by
  cases e with
  | call receiver callee args ty =>
      by_cases hcallee : callee.hasSideEffect = true
      · exact .inl (by simp [ownEffects, hcallee])
      · right
        cases receiver <;>
          simpa [hasSideEffect, receiverHasSideEffect, anyHasSideEffect_eq, hcallee, children]
            using h
  | interpolated parts suffix ty =>
      rw [hasSideEffect, partsHaveSideEffect_eq, List.any_eq_true] at h
      exact .inr h
  | unary op operand ty =>
      by_cases hop : op.mutates = true
      · exact .inl (by simp [ownEffects, hop])
      · right
        simpa [hasSideEffect, hop, children] using h
  | field | property | index | binary | select =>
      right
      simpa [hasSideEffect, children, or_assoc] using h
  | _ => simp [hasSideEffect] at h

theorem effects_eq_nil_iff (e : Expr) : e.effects = [] ↔ e.hasSideEffect = false := by
  refine ⟨fun h => ?_, fun h => filter_operations_eq_nil h⟩
  induction e using Expr.inductOn with
  | h e ih =>
  have hsum := coe_effects e
  rw [h, Multiset.coe_nil, eq_comm, add_eq_zero, List.sum_eq_zero_iff] at hsum
  obtain ⟨hown, hchildren⟩ := hsum
  by_contra hside
  rcases ownEffects_or_of_hasSideEffect (Bool.eq_true_of_not_eq_false hside) with hne | hchild
  · exact hne hown
  · obtain ⟨child, hmem, hchild⟩ := hchild
    have hnone : child.effects = [] :=
      (Multiset.coe_eq_zero _).mp (hchildren _ (List.mem_map_of_mem hmem))
    simp [ih child hmem hnone] at hchild

/-- Where nothing has an effect, no receiver of a static call has one. -/
theorem losesNothing_of_hasSideEffect_eq_false (h : e.hasSideEffect = false) :
    e.everywhere losesNothing = true := by
  induction e using Expr.inductOn with
  | h e ih =>
  refine everywhere_iff.mpr ⟨?_, fun child hchild => ih child hchild ?_⟩
  · cases e with
    | call receiver callee args ty =>
        cases callee <;> simp_all [hasSideEffect, losesNothing, Callee.hasSideEffect]
    | _ => rfl
  · by_contra hside
    simp [hasSideEffect_of_mem_children hchild (Bool.eq_true_of_not_eq_false hside)] at h

/-- What operands lose, they lose together. -/
theorem exists_lost_sum (es : List Expr) (h : ∀ e ∈ es, ∃ lost,
    (e.effects : Multiset Operation) = e.reached + lost ∧
      (lost = 0 ↔ e.everywhere losesNothing = true)) : ∃ lost,
    (es.map fun e => (e.effects : Multiset Operation)).sum = (es.map reached).sum + lost ∧
      (lost = 0 ↔ ∀ e ∈ es, e.everywhere losesNothing = true) := by
  induction es with
  | nil => exact ⟨0, by simp, by simp⟩
  | cons e es ih =>
      obtain ⟨he, hes⟩ := List.forall_mem_cons.mp h
      obtain ⟨lost, heffects, hlost⟩ := he
      obtain ⟨others, hsum, hothers⟩ := ih hes
      refine ⟨lost + others, ?_, ?_⟩
      · rw [List.map_cons, List.sum_cons, heffects, hsum, List.map_cons, List.sum_cons]
        exact add_add_add_comm _ _ _ _
      · rw [add_eq_zero, hlost, hothers, List.forall_mem_cons]

/-- The effects that are not reached are none exactly if the receivers of static calls have none. -/
theorem exists_lost (e : Expr) : ∃ lost, (e.effects : Multiset Operation) = e.reached + lost ∧
    (lost = 0 ↔ e.everywhere losesNothing = true) := by
  induction e using Expr.inductOn with
  | h e ih =>
  by_cases hstatic : ∃ obj owner name args ty, e = .call (some obj) (.user owner name true) args ty
  · obtain ⟨obj, owner, name, args, ty, rfl⟩ := hstatic
    obtain ⟨lost, hsum, hlost⟩ := exists_lost_sum args fun arg (harg : arg ∈ args) =>
      ih arg (by simp [children, harg])
    refine ⟨obj.effects + lost, ?_, ?_⟩
    · rw [coe_effects, reached_eq, children, Option.toList_some, List.singleton_append,
        List.map_cons, List.sum_cons, hsum]
      simp only [printedOperands, Callee.isStatic, if_true, List.nil_append]
      abel
    · rw [add_eq_zero, Multiset.coe_eq_zero, effects_eq_nil_iff, hlost, everywhere_iff]
      simp only [losesNothing, Bool.not_eq_eq_eq_not, Bool.not_true, children, Option.toList_some,
        List.singleton_append, List.forall_mem_cons]
      exact and_congr_right fun hobj =>
        (and_iff_right (losesNothing_of_hasSideEffect_eq_false hobj)).symm
  · have hoperands : e.printedOperands = e.children ∧ e.losesNothing = true := by
      cases e with
      | call receiver callee args ty =>
          cases receiver with
          | none => cases callee <;> simp [printedOperands, children, losesNothing]
          | some obj =>
              cases callee with
              | builtin m => exact ⟨rfl, rfl⟩
              | user owner name isStatic =>
                  cases isStatic with
                  | false => exact ⟨rfl, rfl⟩
                  | true => exact absurd ⟨obj, owner, name, args, ty, rfl⟩ hstatic
      | _ => exact ⟨rfl, rfl⟩
    obtain ⟨lost, hsum, hlost⟩ := exists_lost_sum _ ih
    refine ⟨lost, ?_, ?_⟩
    · rw [coe_effects, reached_eq, hoperands.1, hsum, add_assoc]
    · rw [hlost, everywhere_iff, and_iff_right hoperands.2]

end Expr

end Program

end Emitter
