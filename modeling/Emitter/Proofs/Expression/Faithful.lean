import Emitter.Proofs.Expression.Shown

/-!
# Printed expressions read as their trees

Every printed expression whose names are identifiers reads as its tree where its numbers are
legible. The expressions of the plain kind, those without built-ins, floating-point literals and
constants, are always printed, and their numbers are legible.
-/

namespace Emitter

open Layout Program Reading

variable {cx : Context} {strict : Bool}

/-- What is shown of an expression by induction: its own form, its form as a factor, and the forms
of the values in it where it is a text with values. -/
structure Sound (cx : Context) (strict : Bool) (e : Expr) : Prop where
  printed : Printed cx strict e
  factored : Factored cx strict e
  parts : ∀ parts suffix ty, e = .interpolated parts suffix ty →
    ∀ part ∈ parts, Printed cx strict part.arg

/-- An expression that is neither a product nor a text with values. -/
theorem Sound.of_printed {e : Expr} (h : Printed cx strict e)
    (hprio : cx.target.priority e ≠ .mul)
    (hparts : ∀ parts suffix ty, e ≠ .interpolated parts suffix ty) : Sound cx strict e :=
  ⟨h, h.factored hprio, fun parts suffix ty he => absurd he (hparts parts suffix ty)⟩

/-- Only binary operations have the priority of products. -/
theorem priority_ne_mul {t : Target} {e : Expr}
    (h : ∀ left op right ty, e ≠ .binary left op right ty) : t.priority e ≠ .mul := by
  cases e with
  | literal value ty =>
      cases t <;> simp only [Target.priority, Expr.priority] <;> split_ifs <;> decide
  | unary op operand ty =>
      cases t <;> simp only [Target.priority, Expr.priority] <;> split_ifs <;> decide
  | binary left op right ty => exact absurd rfl (h left op right ty)
  | property obj accessor ty =>
      cases t <;> cases accessor <;> simp [Target.priority, Expr.priority]
  | call receiver callee args ty =>
      cases t with
      | actionScript => simp [Target.priority, Expr.priority]
      | cFamily d =>
          cases callee with
          | user => simp [Target.priority, Expr.priority]
          | builtin m => cases m <;> simp [Target.priority, Expr.priority]
  | _ => cases t <;> simp [Target.priority, Expr.priority]

/-- Every printed expression with identifiers for names is sound. -/
theorem sound (hnamed : cx.program.Named cx.target) (e : Expr)
    (hname : e.everywhere Expr.isNamed = true)
    (hlegible : strict = true → e.everywhere cx.isLegible = true) : Sound cx strict e := by
  induction e using Expr.inductOn with
  | h e ih =>
      obtain ⟨hname, hnames⟩ := Expr.everywhere_iff.mp hname
      have hlegible' : strict = true → cx.isLegible e = true := fun hs =>
        (Expr.everywhere_iff.mp (hlegible hs)).1
      have ih : ∀ child ∈ e.children, Sound cx strict child := fun child hchild =>
        ih child hchild (hnames child hchild) fun hs =>
          (Expr.everywhere_iff.mp (hlegible hs)).2 child hchild
      cases e with
      | literal value ty =>
          exact .of_printed (Context.printed_literal value ty) (priority_ne_mul (by simp)) (by simp)
      | var name ty =>
          exact .of_printed (printed_var hname ty) (priority_ne_mul (by simp)) (by simp)
      | this ty => exact .of_printed (printed_this ty) (priority_ne_mul (by simp)) (by simp)
      | const owner name ty =>
          exact .of_printed (Context.printed_const hnamed owner hname ty)
            (priority_ne_mul (by simp))
            (by simp)
      | enumValue id i ty =>
          exact .of_printed (Context.printed_enumValue hnamed id i ty) (priority_ne_mul (by simp))
            (by simp)
      | field obj name ty =>
          have hobj := (ih obj (by simp [Expr.children])).printed
          exact .of_printed (printed_field ty hobj hname hlegible') (priority_ne_mul (by simp))
            (by simp)
      | property obj accessor ty =>
          have hobj := (ih obj (by simp [Expr.children])).printed
          exact .of_printed (printed_property ty hobj hlegible') (priority_ne_mul (by simp))
            (by simp)
      | call receiver callee args ty =>
          have hr : ∀ e ∈ receiver, Sound cx strict e := by
            rintro e rfl
            exact ih e (by simp [Expr.children])
          have ha : ∀ e ∈ args, Sound cx strict e := fun e he =>
            ih e (by simp [Expr.children, he])
          refine .of_printed ?_ (priority_ne_mul (by simp)) (by simp)
          cases callee with
          | user owner name isStatic =>
              exact printed_userCall hnamed ty (fun e he => (hr e he).printed)
                (fun e he => (ha e he).printed) hname hlegible'
          | builtin m =>
              exact printed_builtinCall ty (fun e he => (hr e he).printed)
                (fun e he => (ha e he).printed) (fun e he => (ha e he).factored)
                (fun parts suffix ty he => (ha _ he).parts parts suffix ty rfl) hlegible'
      | index array position ty =>
          have harray := (ih array (by simp [Expr.children])).printed
          have hposition := (ih position (by simp [Expr.children])).printed
          refine .of_printed (printed_index ty harray hposition fun hs => ?_)
            (priority_ne_mul (by simp)) (by simp)
          simpa [Context.isLegible] using hlegible' hs
      | unary op operand ty =>
          have hoperand := (ih operand (by simp [Expr.children])).printed
          exact .of_printed (printed_unary ty hoperand hlegible') (priority_ne_mul (by simp))
            (by simp)
      | binary left op right ty =>
          have hleft := ih left (by simp [Expr.children])
          have hright := ih right (by simp [Expr.children])
          have hprinted : Printed cx strict (.binary left op right ty) :=
            printed_binary ty hleft.printed hright.printed
          exact ⟨hprinted, factored_binary ty hleft.printed hleft.factored hright.printed hprinted,
            by simp⟩
      | select cond onTrue onFalse ty =>
          have hcond := (ih cond (by simp [Expr.children])).printed
          have htrue := (ih onTrue (by simp [Expr.children])).printed
          have hfalse := (ih onFalse (by simp [Expr.children])).printed
          exact .of_printed (printed_select ty hcond htrue hfalse) (priority_ne_mul (by simp))
            (by simp)
      | interpolated parts suffix ty =>
          have hparts : ∀ part ∈ parts, Printed cx strict part.arg := fun part hpart =>
            (ih part.arg (List.mem_map_of_mem hpart)).printed
          have hprinted : Printed cx strict (.interpolated parts suffix ty) := by
            cases ht : cx.target with
            | actionScript => exact ActionScript.printed_interpolated suffix ty ht hparts
            | cFamily d =>
                intro code hc
                simp [Context.code, ht, Context.unsupported] at hc
          refine ⟨hprinted, hprinted.factored (priority_ne_mul (by simp)), ?_⟩
          rintro parts' suffix' ty' he
          obtain rfl := (Expr.interpolated.inj he).1
          exact hparts
      | resource name ty =>
          exact .of_printed (printed_resource name ty) (priority_ne_mul (by simp)) (by simp)

/-- Printed expressions read as their trees. -/
theorem readsAs_tree (hnamed : cx.program.Named cx.target) {e : Expr} {code : Code}
    (hname : e.everywhere Expr.isNamed = true) (hlegible : e.everywhere cx.isLegible = true)
    (hc : cx.code e = .ok code) : code.ReadsAs cx.target (cx.tree e) :=
  ((@sound cx true hnamed e hname fun _ => hlegible).printed code hc).piece.readsAs

end Emitter
