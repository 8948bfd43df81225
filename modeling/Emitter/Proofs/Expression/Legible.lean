import Emitter.Proofs.Expression.Everywhere
import Emitter.Proofs.Expression.Meaning
import Emitter.Proofs.Reading.Words

/-!
# What can be read back

Names have to be identifiers. Three kinds of numbers are printed in a way that their surroundings do
not allow for: a point behind a number without a sign belongs to the number, `-0.0` binds looser
than its priority says, and the sign of a negative floating-point literal runs into a minus in
front of it.
-/

namespace Emitter

open Number Program Reading

/-- The names of a program's declarations are identifiers, and those that are printed as they stand
are not reserved. -/
structure Program.Named (t : Target) (p : Program) : Prop where
  enums : ∀ e ∈ p.enums, isWord e.name = true ∧ e.name ∉ t.keywords.words ∧
    ∀ value ∈ e.values, isWord value.name = true
  classes : ∀ c ∈ p.classes, isWord c.name = true ∧ c.name ∉ t.keywords.words ∧
    ∀ k ∈ c.consts ++ c.constArrays, isWord k.emittedName = true

/-- The name in an expression is an identifier. -/
def Program.Expr.isNamed : Expr → Bool
  | .var name _ | .const _ name _ | .field _ name _ | .call _ (.user _ name _) _ _ => isWord name
  | _ => true

namespace Context

/-- The number that an expression is printed as. -/
def number? (cx : Context) : Expr → Option ConstValue
  | .literal (.int n) _ => some (.int n)
  | .literal (.float x) _ => some (.float x)
  | .const owner name _ => (cx.inlined? owner name).map ConstDef.value
  | _ => none

/-- The expression is printed as `-0.0`, which has the priority of a number without a sign. -/
def isMinusZero (cx : Context) (e : Expr) : Bool :=
  match cx.number? e with
  | some (.float x) => x.isNegative && x.isZero
  | _ => false

/-- The expression is printed as a number without parentheses, and without a sign unless it
is `-0.0`. -/
def isBareNumber (cx : Context) (e : Expr) : Bool :=
  match cx.number? e with
  | some (.int n) => decide (0 ≤ n)
  | some (.float x) => x.isFinite && !x.isBelowZero
  | _ => false

/-- The expression starts with a sign that a minus in front of it does not notice. -/
def hidesSign (cx : Context) (e : Expr) : Bool :=
  cx.isMinusZero e ||
    match e with
    | .literal (.float x) _ => x.isBelowZero
    | _ => false

/-- A selector may stand behind the expression. -/
def allowsSelector (cx : Context) (selector : String) (obj : Expr) : Bool :=
  if selector = "." then !cx.isBareNumber obj else !cx.isMinusZero obj

/-- The receiver of a call may be printed at the place the target gives it. -/
def allowsReceiver (cx : Context) (obj : Expr) (callee : Callee) (args : List Expr) : Bool :=
  match cx.target, callee with
  | .actionScript, .user .. | .actionScript, .builtin .charAt => !cx.isBareNumber obj
  | .actionScript, .builtin .substring =>
    (args.head?.any fun start => start.hasSideEffect) || !cx.isBareNumber obj
  | .cFamily _, .builtin .charAt | .cFamily _, .builtin .arrayCopyTo
  | .cFamily _, .builtin .arrayClear => !cx.isMinusZero obj
  | _, _ => true

/-- No number stands directly in the expression where it would be read as something else. -/
def isLegible (cx : Context) : Expr → Bool
  | .field obj _ _ => cx.allowsSelector (cx.selector obj.ty) obj
  | .property obj .stringLength _ =>
    match cx.target with
    | .actionScript => !cx.isBareNumber obj
    | .cFamily _ => true
  | .call (some obj) callee args _ => cx.allowsReceiver obj callee args
  | .index array _ _ => !cx.isMinusZero array
  | .unary op operand _ =>
    if op.isPostfix then !cx.isMinusZero operand else op ≠ .neg || !cx.hidesSign operand
  | _ => true

end Context

/-- The level of the grammar that a priority stands for. -/
def Priority.level : Priority → Nat
  | .statement | .argument | .select => 0
  | .condOr => 1
  | .condAnd => 2
  | .or => 3
  | .xor => 4
  | .and => 5
  | .equality => 6
  | .rel => 7
  | .shift => 8
  | .add => 9
  | .mul => 10
  | .prefixed => 11
  | .postfixed | .primary => 12

/-- The level of the grammar that an expression is printed at. -/
def Context.grade (cx : Context) (e : Expr) : Nat :=
  if cx.isMinusZero e then 11 else (cx.target.priority e).level

/-- A looser priority has a looser level. -/
theorem Priority.level_mono {a b : Priority} (h : ¬a < b) : b.level ≤ a.level := by
  revert h
  cases a <;> cases b <;> decide

/-- Above an operator of a binary level, the next level starts. -/
theorem Priority.level_lt {a b : Priority} (h : ¬a ≤ b) (hb : b ≤ mul) (hb' : select ≤ b) :
    b.level + 1 ≤ a.level := by
  revert h hb hb'
  cases a <;> cases b <;> decide

theorem binaryLevel?_text (op : BinaryOp) : binaryLevel? op.text = some op.priority.level := by
  cases op <;> decide

end Emitter

namespace Emitter.Reading.Tree

/-- The tree is a single name. -/
def isName : Tree → Bool
  | .name _ => true
  | _ => false

theorem isName_signed (negative : Bool) (magnitude : Tree) :
    (signed negative magnitude).isName = (!negative && magnitude.isName) := by
  cases negative <;> rfl

theorem not_isType {t : Target} {tree : Tree} (h : tree.isName = false) : ¬tree.isType t := by
  cases tree <;> simp_all [isName, isType]

end Emitter.Reading.Tree

namespace Emitter.Context

open Number Program Reading

variable {cx : Context}

theorem isName_builtinTree (d : Dialect) (receiver : Option Term) (m : BuiltinMethod)
    (args : List Term) : (CFamily.builtinTree cx d receiver m args).isName = false := by
  unfold CFamily.builtinTree
  split <;> try rfl
  all_goals
    unfold CFamily.arrayMethodTree
    split <;> try rfl
    split <;> rfl

theorem isName_printTree (d : Dialect) (lineEnd : String) (args : List CFamily.ShownTerm) :
    (CFamily.printTree cx d lineEnd args).isName = false := by
  have hprintf : ∀ format values, (CFamily.printfTree d format values).isName = false := by
    intro format values
    cases format <;> rfl
  unfold CFamily.printTree
  split
  · exact hprintf _ _
  · exact hprintf _ _
  · split <;> exact hprintf _ _
  · rfl

theorem isName_asBuiltinTree (receiver : Option Term) (m : BuiltinMethod) (args : List Term) :
    (ActionScript.builtinTree cx receiver m args).isName = false := by
  unfold ActionScript.builtinTree
  split <;> try rfl
  unfold ActionScript.methodTree
  split <;> try rfl
  split_ifs <;> rfl

theorem isName_userCallTree (receiver : Option Term) (owner : ClassId) (name : String)
    (isStatic : Bool) (args : List Term) :
    (cx.userCallTree receiver owner name isStatic args).isName = false := by
  unfold userCallTree
  split
  · rfl
  · split <;> rfl

theorem isName_sumTree {sum : Tree} (h : sum.isName = false) (holes : List (Hole × Term)) :
    (sumTree sum holes).isName = false := by
  induction holes generalizing sum with
  | nil => exact h
  | cons part rest ih => exact ih rfl

/-- Only what a target prints as primary is read as a lone name. -/
theorem isName_tree {e : Expr} (h : cx.target.priority e ≠ .primary) :
    (cx.tree e).isName = false := by
  cases e with
  | literal value ty =>
      cases value with
      | int n =>
          rw [tree, literalTree, integerTree, Tree.isName_signed]
          simp [Tree.isName]
      | float x =>
          have hbelow : x.isBelowZero = true := by
            by_contra hbelow
            apply h
            cases ht : cx.target <;>
              simp [Target.priority, Expr.priority, Literal.isBelowZero, hbelow]
          simp only [Binary64.isBelowZero, Bool.and_eq_true, Bool.not_eq_true'] at hbelow
          simp [tree, literalTree, floatTree, hbelow, Tree.isName_signed]
      | _ => exact absurd (by cases cx.target <;> rfl) h
  | var | this | const | enumValue | resource => exact absurd (by cases cx.target <;> rfl) h
  | field obj name ty => simp [tree, fieldTree, Tree.isName]
  | property obj accessor ty =>
      simp only [tree, propertyTree]
      cases cx.target with
      | actionScript => cases accessor <;> rfl
      | cFamily d => cases accessor <;> cases d <;> rfl
  | call receiver callee args ty =>
      cases callee with
      | user owner name isStatic => exact isName_userCallTree ..
      | builtin m =>
          simp only [tree]
          split
          · exact isName_asBuiltinTree ..
          · exact isName_printTree ..
          · exact isName_printTree ..
          · exact isName_builtinTree ..
  | index array position ty => simp [tree, Tree.isName]
  | unary op operand ty =>
      simp only [tree, unaryTree]
      split_ifs <;> rfl
  | binary left op right ty =>
      simp only [tree, binaryTree]
      cases cx.target with
      | actionScript => dsimp only; split_ifs <;> rfl
      | cFamily d => cases d <;> dsimp only <;> split_ifs <;> rfl
  | select cond onTrue onFalse ty => simp [tree, Tree.isName]
  | interpolated parts suffix ty =>
      simp only [tree, interpolatedTree]
      split
      · rfl
      · split_ifs
        · rfl
        · exact isName_sumTree rfl _

end Emitter.Context
