import Emitter.Proofs.Expression.Everywhere
import Emitter.Target.Basic

/-!
# The operations of an expression

The operations of an expression are its calls, its increments and decrements, and what takes the
place of an integer division. In ActionScript the start of a substring is printed twice where that
cannot be observed, so what is performed twice has no effect.
-/

namespace Emitter

open Program

/-- What a printed expression performs. -/
inductive Operation
  | call (callee : Callee)
  | change (op : UnaryOp)
  /-- The quotient of integers. -/
  | quotient
  /-- The division of an array's element in place, which is an assignment and no part of its
  sides. -/
  | divideElement

namespace Operation

/-- Performing the operation twice could be observed. -/
def hasEffect : Operation → Bool
  | call callee => callee.hasSideEffect
  | change _ => true
  | quotient | divideElement => false

/-- The function that a built-in method is printed as. -/
def functionName : BuiltinMethod → String
  | .mulDiv => "int"
  | .charAt => "charCodeAt"
  | .substring => "substring"
  | .arrayCopyTo => "copyArray"
  | .arrayToString => "bytesToString"
  | .arrayClear => "clearArray"
  | .consoleWrite | .consoleWriteLine => "trace"
  | .mathAbs => "abs"
  | .mathSqrt => "sqrt"

/-- The operation as it is read in a text. -/
def spelling : Operation → String
  | call (.user _ name _) => Target.actionScript.localName name
  | call (.builtin m) => functionName m
  | change op => op.text
  | quotient => "int"
  | divideElement => "divideElement"

@[simp] theorem spelling_builtin (m : BuiltinMethod) :
    spelling (.call (.builtin m)) = functionName m := rfl

end Operation

namespace Program

namespace BuiltinMethod

/-- The method is called on a receiver. -/
def hasReceiver : BuiltinMethod → Bool
  | consoleWrite | consoleWriteLine | mathAbs | mathSqrt => false
  | _ => true

/-- The numbers of arguments that the method is called with. -/
def arities : BuiltinMethod → List Nat
  | arrayClear => [0]
  | consoleWrite | consoleWriteLine => [0, 1]
  | charAt | mathAbs | mathSqrt => [1]
  | mulDiv | substring | arrayToString => [2]
  | arrayCopyTo => [4]

end BuiltinMethod

namespace Expr

/-- A built-in method is called with the receiver and the number of arguments it is defined with. -/
def isApplied : Expr → Bool
  | .call receiver (.builtin m) args _ =>
    receiver.isSome == m.hasReceiver && decide (args.length ∈ m.arities)
  | _ => true

mutual

/-- The operations of an expression, each where it is complete: those of a receiver, those of the
arguments, the call. An increment or decrement stands where its sign does. The operations in the
start of a substring are listed once more if it is to be read `again`. -/
def operations (again : Expr → Bool) : Expr → List Operation
  | .literal .. | .var .. | .this _ | .const .. | .enumValue .. | .resource .. => []
  | .field obj _ _ | .property obj _ _ => operations again obj
  | .call receiver (.builtin .substring) [start, length] _ =>
    receiverOperations again receiver ++ (if again start then operations again start else []) ++
      operations again start ++ operations again length ++ [.call (.builtin .substring)]
  | .call receiver callee args _ =>
    receiverOperations again receiver ++ argOperations again args ++ [.call callee]
  | .index array position _ => operations again array ++ operations again position
  | .unary op operand _ =>
    if op.isPostfix then operations again operand ++ [.change op]
    else (if op.mutates then [.change op] else []) ++ operations again operand
  | .binary left op right ty =>
    operations again left ++ operations again right ++
      (if op = .div ∧ ty.isInteger then [.quotient] else [])
  | .select cond onTrue onFalse _ =>
    operations again cond ++ operations again onTrue ++ operations again onFalse
  | .interpolated parts _ _ => partOperations again parts

def receiverOperations (again : Expr → Bool) : Option Expr → List Operation
  | none => []
  | some e => operations again e

def argOperations (again : Expr → Bool) : List Expr → List Operation
  | [] => []
  | e :: rest => operations again e ++ argOperations again rest

def partOperations (again : Expr → Bool) : List Part → List Operation
  | [] => []
  | .mk _ arg :: rest => operations again arg ++ partOperations again rest

end

/-- The operations with effects, in the order of the source. -/
def effects (e : Expr) : List Operation :=
  (e.operations fun _ => false).filter Operation.hasEffect

/-- The operations as they are printed: the start of a substring twice unless that has effects. -/
def printed (e : Expr) : List Operation := e.operations fun start => !start.hasSideEffect

variable {again : Expr → Bool}

theorem receiverOperations_eq (receiver : Option Expr) :
    receiverOperations again receiver = receiver.toList.flatMap (operations again) := by
  cases receiver <;> simp [receiverOperations]

theorem argOperations_eq (args : List Expr) :
    argOperations again args = args.flatMap (operations again) := by
  induction args with
  | nil => rfl
  | cons e rest ih => simp [argOperations, ih]

theorem partOperations_eq (parts : List Part) :
    partOperations again parts = (parts.map Part.arg).flatMap (operations again) := by
  induction parts with
  | nil => rfl
  | cons part rest ih =>
      cases part
      simp [partOperations, Part.arg, ih]

theorem operations_call {receiver : Option Expr} {callee : Callee} {args : List Expr} {ty : Ty}
    (h : ∀ start length, callee = .builtin .substring → args ≠ [start, length]) :
    operations again (.call receiver callee args ty) =
      (receiver.toList ++ args).flatMap (operations again) ++ [.call callee] := by
  rw [operations, receiverOperations_eq, argOperations_eq, List.flatMap_append]
  rintro start length rfl rfl
  exact h start length rfl rfl

theorem operations_substring (receiver : Option Expr) (start length : Expr) (ty : Ty) :
    operations again (.call receiver (.builtin .substring) [start, length] ty) =
      receiver.toList.flatMap (operations again) ++
        (if again start then operations again start else []) ++
        operations again start ++ operations again length ++ [.call (.builtin .substring)] := by
  rw [operations, receiverOperations_eq]

theorem anyHasSideEffect_eq (args : List Expr) :
    anyHasSideEffect args = args.any hasSideEffect := by
  induction args with
  | nil => rfl
  | cons e rest ih => simp [anyHasSideEffect, ih]

theorem partsHaveSideEffect_eq (parts : List Part) :
    partsHaveSideEffect parts = (parts.map Part.arg).any hasSideEffect := by
  induction parts with
  | nil => rfl
  | cons part rest ih =>
      cases part
      simp [partsHaveSideEffect, Part.arg, ih]

theorem hasSideEffect_of_mem_children {e child : Expr} (hchild : child ∈ e.children)
    (h : child.hasSideEffect = true) : e.hasSideEffect = true := by
  cases e with
  | call receiver callee args ty =>
      have hargs : child ∈ args → args.any hasSideEffect = true := fun hmem =>
        List.any_eq_true.mpr ⟨child, hmem, h⟩
      cases receiver <;>
        simp only [children, Option.toList, List.nil_append, List.cons_append,
          List.mem_cons] at hchild <;>
        simp only [hasSideEffect, receiverHasSideEffect, anyHasSideEffect_eq] <;> grind
  | interpolated parts suffix ty =>
      rw [hasSideEffect, partsHaveSideEffect_eq]
      exact List.any_eq_true.mpr ⟨child, hchild, h⟩
  | _ =>
      simp only [children, List.mem_cons, List.not_mem_nil, or_false] at hchild <;>
        simp only [hasSideEffect] <;> grind

/-- An operation is one of an operand, or the expression's own. -/
theorem mem_operations {e : Expr} {op : Operation} (h : op ∈ operations again e) :
    (∃ child ∈ e.children, op ∈ operations again child) ∨
      (op.hasEffect = true → e.hasSideEffect = true) := by
  cases e with
  | call receiver callee args ty =>
      have hown : Operation.hasEffect (.call callee) = true →
          (call receiver callee args ty).hasSideEffect = true := by
        simp +contextual [Operation.hasEffect, hasSideEffect]
      by_cases hcase : ∃ start length, callee = .builtin .substring ∧ args = [start, length]
      · obtain ⟨start, length, rfl, rfl⟩ := hcase
        rw [operations_substring] at h
        simp only [List.mem_append, List.mem_singleton, List.mem_flatMap] at h
        simp only [children, List.mem_append]
        grind
      · rw [operations_call fun start length hc ha => hcase ⟨start, length, hc, ha⟩] at h
        simp only [List.mem_append, List.mem_singleton, List.mem_flatMap] at h
        rcases h with h | rfl
        · exact .inl (by simpa [children] using h)
        · exact .inr hown
  | unary op' operand ty =>
      have hmutates : op'.isPostfix = true → op'.mutates = true := by
        cases op' <;> simp [UnaryOp.isPostfix, UnaryOp.mutates]
      simp only [operations] at h
      simp only [children, List.mem_singleton, exists_eq_left, hasSideEffect]
      split_ifs at h with hpost hpre <;> grind
  | binary left op' right ty =>
      have hquotient : Operation.hasEffect .quotient = false := rfl
      simp only [operations, List.mem_append] at h
      simp only [children, List.mem_cons, List.not_mem_nil, or_false]
      split_ifs at h <;> grind
  | interpolated parts suffix ty =>
      rw [operations, partOperations_eq] at h
      exact .inl (by simpa [children] using h)
  | field | property | index | select =>
      left
      simpa [operations, children, or_assoc] using h
  | _ => simp [operations] at h

/-- The own operation of an expression has an effect if the expression has. -/
theorem hasSideEffect_of_mem_operations {e : Expr} {op : Operation} (h : op ∈ operations again e)
    (hop : op.hasEffect = true) : e.hasSideEffect = true := by
  induction e using Expr.inductOn with
  | h e ih =>
  rcases mem_operations h with ⟨child, hchild, hmem⟩ | hown
  · exact hasSideEffect_of_mem_children hchild (ih child hchild hmem)
  · exact hown hop

theorem filter_operations_eq_nil {e : Expr} (h : e.hasSideEffect = false) :
    (operations again e).filter Operation.hasEffect = [] := by
  refine List.filter_eq_nil_iff.mpr fun op hmem hop => ?_
  simp [hasSideEffect_of_mem_operations hmem hop] at h

theorem filter_flatMap_operations {es : List Expr}
    (h : ∀ e ∈ es, (operations again e).filter Operation.hasEffect = e.effects) :
    (es.flatMap (operations again)).filter Operation.hasEffect = es.flatMap effects := by
  rw [List.filter_flatMap]
  exact List.flatMap_congr h

/-- Reading the start of a substring again adds no effect if that start has none. -/
theorem filter_operations (hagain : ∀ start, again start = true → start.hasSideEffect = false)
    (e : Expr) : (operations again e).filter Operation.hasEffect = e.effects := by
  induction e using Expr.inductOn with
  | h e ih =>
  have hflat : ∀ es : List Expr, (∀ child ∈ es, child ∈ e.children) →
      (es.flatMap (operations again)).filter Operation.hasEffect =
        (es.flatMap (operations fun _ => false)).filter Operation.hasEffect := fun es hes =>
    (filter_flatMap_operations fun child hchild => ih child (hes child hchild)).trans
      (filter_flatMap_operations fun _ _ => rfl).symm
  unfold effects
  cases e with
  | call receiver callee args ty =>
      by_cases hcase : ∃ start length, callee = .builtin .substring ∧ args = [start, length]
      · obtain ⟨start, length, rfl, rfl⟩ := hcase
        have hstart : (if again start then operations again start else []).filter
            Operation.hasEffect = [] := by
          split_ifs with h
          · exact filter_operations_eq_nil (hagain start h)
          · rfl
        have hreceiver := hflat receiver.toList (by simp +contextual [children])
        have hfirst := ih start (by simp [children])
        have hlast := ih length (by simp [children])
        rw [operations_substring, operations_substring]
        simp [hstart, hreceiver, hfirst, hlast, effects]
      · have hne : ∀ start length, callee = .builtin .substring → args ≠ [start, length] :=
          fun start length hc ha => hcase ⟨start, length, hc, ha⟩
        have hchildren := hflat (receiver.toList ++ args) (by simp [children])
        rw [operations_call hne, operations_call hne, List.filter_append, List.filter_append,
          hchildren]
  | interpolated parts suffix ty =>
      rw [operations, operations, partOperations_eq, partOperations_eq]
      exact hflat _ (by simp [children])
  | unary op operand ty =>
      have hoperand := ih operand (by simp [children])
      simp only [operations]
      split_ifs <;> simp [hoperand, effects, List.filter_cons]
  | field | property | index | binary | select =>
      simp only [children, List.forall_mem_cons] at ih
      simp [operations, ih, effects]
  | _ => rfl

end Expr

end Program

end Emitter
