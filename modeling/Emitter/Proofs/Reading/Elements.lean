import Emitter.Proofs.Reading.Execution

/-!
# Calls on the elements of a variable

What loops around a call do to a local variable, where one name can hide another. A name stands for
what it was last declared as: the counter of a loop, or a variable. Only a name that is not declared
in the function is a name of the file, such as that of a function.
-/

namespace Emitter.Reading

/-- What a name that is declared in a function stands for. -/
inductive Binding
  | counter (value : Nat)
  | object (address : Nat)
  deriving DecidableEq

/-- The names in scope, the one that was declared last in front. -/
abbrev Names := List (String × Binding)

/-- A call of a function of the file with the address of a variable, or of an element of it. -/
structure ElementCall where
  function : String
  address : Nat
  indices : List Nat
  deriving DecidableEq

/-- The value of a counter in scope. -/
def Names.counter? (names : Names) (name : String) : Option Nat :=
  match names.lookup name with
  | some (.counter value) => some value
  | _ => none

/-- The variable in scope that a name stands for. -/
def Names.object? (names : Names) (name : String) : Option Nat :=
  match names.lookup name with
  | some (.object address) => some address
  | _ => none

/-- The values of the counters between pairs of brackets. -/
def elementIndices (names : Names) : List Token → Option (List Nat)
  | [] => some []
  | .symbol "[" :: .word index :: .symbol "]" :: ts => do
    return (← names.counter? index) :: (← elementIndices names ts)
  | _ => none

/-- The variable that is written in front, and the indices behind it. -/
def readElement (names : Names) : List Token → Option (Nat × List Nat)
  | .word x :: ts => do return (← names.object? x, ← elementIndices names ts)
  | _ => none

/-- The call that is written `function(&element)`. -/
def elementCall (names : Names) : List Token → Option ElementCall
  | .word function :: .symbol "(" :: .symbol "&" :: ts => do
    let (inside, behind) ← cutAt ")" 0 ts
    let (address, indices) ← readElement names inside
    if behind.isEmpty ∧ names.lookup function = none then return ⟨function, address, indices⟩
    else none
  | _ => none

/-- The calls of a statement, in order. -/
def elementCalls (largest : Option Nat) (names : Names) : Shape → Option (List ElementCall)
  | .simple ts => do return [← elementCall names ts]
  | .forLoop start cond advance body => do
    let (index, first, limit) ← readCount start cond advance
    let rounds ← (← countFrom largest limit first).mapM fun i =>
      elementCalls largest ((index, .counter i) :: names) body
    return rounds.flatten
  | _ => none

/-- The element of a variable that the counters of that many loops lead to. -/
def elementTokens (x : String) (depth : Nat) : List Token :=
  .word x :: (List.range depth).flatMap fun k => [.symbol "[", .word (counterName k), .symbol "]"]

/-- A call of the function on every element of a variable that is an array of arrays of the
lengths. -/
def eachElement (function x : String) : Nat → List Nat → Shape
  | depth, [] => .simple
      (.word function :: .symbol "(" :: .symbol "&" :: (elementTokens x depth ++ [.symbol ")"]))
  | depth, n :: lengths => .forLoop
      [.word "int", .word (counterName depth), .symbol "=", .number "0"]
      [.word (counterName depth), .symbol "<", .number (toString n)]
      [.word (counterName depth), .symbol "++"] (eachElement function x (depth + 1) lengths)

variable {largest : Option Nat} {names : Names} {function x : String} {address : Nat}

theorem elementTokens_succ (x : String) (depth : Nat) : elementTokens x (depth + 1) =
    elementTokens x depth ++
      [Token.symbol "[", Token.word (counterName depth), Token.symbol "]"] := by
  simp [elementTokens, List.range_succ]

theorem balanced_elementTokens (x : String) (depth : Nat) : Balanced (elementTokens x depth) := by
  induction depth with
  | zero => exact .singleton fun _ => rfl
  | succ depth ih =>
      rw [elementTokens_succ]
      have hindex : Balanced [.word (counterName depth)] := .singleton fun _ => rfl
      exact ih.append (hindex.bracketed (by decide) (by decide))

/-- Inside of loops with the values, the names stand for what they have to: the counters for their
values, the variable for its address, and the function for itself. -/
structure Names.Loops (names : Names) (function x : String) (address : Nat) (values : List Nat) :
    Prop where
  counters : ∀ k i, values[k]? = some i → names.lookup (counterName k) = some (.counter i)
  element : names.lookup x = some (.object address)
  free : names.lookup function = none

/-- One loop further in, nothing is hidden by the counter. -/
theorem Names.Loops.append {values : List Nat} (h : names.Loops function x address values)
    (hx : x ≠ counterName values.length) (hfunction : function ≠ counterName values.length)
    (i : Nat) : Names.Loops ((counterName values.length, .counter i) :: names) function x address
      (values ++ [i]) where
  counters k j hj := by
    by_cases hk : k < values.length
    · have hne : counterName k ≠ counterName values.length := fun heq =>
        Nat.ne_of_lt hk (counterName_injective heq)
      rw [List.getElem?_append_left hk] at hj
      rw [List.lookup_cons, beq_false_of_ne hne]
      exact h.counters k j hj
    · obtain rfl : k = values.length := by
        have hlt := (List.getElem?_eq_some_iff.mp hj).1
        rw [List.length_append, List.length_singleton] at hlt
        omega
      rw [List.getElem?_concat_length] at hj
      rw [List.lookup_cons, beq_self_eq_true, Option.some.inj hj]
  element := by
    rw [List.lookup_cons, beq_false_of_ne hx]
    exact h.element
  free := by
    rw [List.lookup_cons, beq_false_of_ne hfunction]
    exact h.free

theorem elementIndices_eq_some {given : List String} {values : List Nat}
    (h : List.Forall₂ (fun name i => names.lookup name = some (.counter i)) given values) :
    elementIndices names (given.flatMap fun name => [.symbol "[", .word name, .symbol "]"]) =
      some values := by
  induction h with
  | nil => rfl
  | cons hname _ ih => simp [elementIndices, Names.counter?, hname, ih]

theorem elementCall_elementTokens {values : List Nat}
    (h : names.Loops function x address values) :
    elementCall names (.word function :: .symbol "(" :: .symbol "&" ::
      (elementTokens x values.length ++ [Token.symbol ")"])) =
        some ⟨function, address, values⟩ := by
  have hvalues : List.Forall₂ (fun name i => names.lookup name = some (.counter i))
      ((List.range values.length).map counterName) values := by
    refine List.forall₂_iff_get.mpr ⟨by simp, fun k hk hk' => ?_⟩
    have hlookup := h.counters k values[k] (List.getElem?_eq_getElem hk')
    simpa using hlookup
  have hindices := elementIndices_eq_some hvalues
  rw [List.flatMap_map] at hindices
  have hcut : cutAt ")" 0 (elementTokens x values.length ++ [Token.symbol ")"]) =
      some (elementTokens x values.length, []) :=
    (balanced_elementTokens x values.length).cutAt (by decide) []
  have helement : readElement names (elementTokens x values.length) = some (address, values) := by
    rw [elementTokens, readElement, hindices]
    simp [Names.object?, h.element]
  rw [elementCall, hcut]
  simp only [Option.bind_eq_bind, Option.bind_some, helement, h.free, List.isEmpty_nil, and_self,
    if_true]
  rfl

/-- The loops call the function on every element once, in row-major order, if no counter has the
name of the variable or of the function. -/
theorem elementCalls_eachElement (lengths : List Nat) {values : List Nat}
    (h : names.Loops function x address values)
    (hx : ∀ k < lengths.length, x ≠ counterName (values.length + k))
    (hfunction : ∀ k, function ≠ counterName k)
    (hlengths : ∀ most ∈ largest, ∀ n ∈ lengths, n ≤ most) :
    elementCalls largest names (eachElement function x values.length lengths) =
      some ((rowMajor lengths).map fun is => ⟨function, address, values ++ is⟩) := by
  induction lengths generalizing names values with
  | nil =>
      rw [eachElement, elementCalls, elementCall_elementTokens h]
      simp [rowMajor]
  | cons n lengths ih =>
      have hrounds : countFrom largest n 0 = some (List.range n) := by
        rw [countFrom_eq fun most hmost => hlengths most hmost n (List.mem_cons_self ..),
          Nat.sub_zero, List.range_eq_range']
      have hround : ∀ i, elementCalls largest ((counterName values.length, .counter i) :: names)
          (eachElement function x (values.length + 1) lengths) =
            some ((rowMajor lengths).map fun is => ⟨function, address, values ++ i :: is⟩) := by
        intro i
        have hinside := h.append (hx 0 (Nat.succ_pos _)) (hfunction _) i
        have hinner := ih hinside (fun k hk => ?_) fun most hmost m hm =>
          hlengths most hmost m (List.mem_cons_of_mem _ hm)
        · simpa using hinner
        · have hcounter := hx (k + 1) (Nat.succ_lt_succ hk)
          simpa [Nat.add_assoc, Nat.add_comm 1 k] using hcounter
      have hall := List.mapM_pure (m := Option) (l := List.range n) (f := fun i =>
        (rowMajor lengths).map fun is => ElementCall.mk function address (values ++ i :: is))
      rw [eachElement, elementCalls, readCount_eachCall]
      simp only [Option.bind_eq_bind, Option.bind_some, hrounds, hround]
      refine (congrArg (Option.bind · _) hall).trans ?_
      simp [rowMajor, List.flatMap_def, Function.comp_def]

theorem sane_eachElement (hfunction : .word function ∉ Shape.openers) (x : String) (depth : Nat)
    (lengths : List Nat) : (eachElement function x depth lengths).Sane := by
  induction lengths generalizing depth with
  | nil =>
      have hfirst : Balanced [.word function] ∧ Balanced [.symbol "&"] :=
        ⟨fun _ => rfl, fun _ => rfl⟩
      have haddress : Balanced (.symbol "&" :: elementTokens x depth) :=
        hfirst.2.append (balanced_elementTokens x depth)
      have hcall : Balanced (.word function :: .symbol "(" :: .symbol "&" ::
          (elementTokens x depth ++ [Token.symbol ")"])) :=
        hfirst.1.append (haddress.bracketed (by decide) (by decide))
      simp only [eachElement, Shape.Sane]
      refine ⟨hcall, fun t ht => ?_⟩
      obtain rfl := Option.some.inj ht
      exact hfunction
  | cons n lengths ih =>
      simp only [eachElement, Shape.Sane]
      exact ⟨fun _ => rfl, fun _ => rfl, fun _ => rfl, ih _⟩

theorem attached_eachElement (function x : String) (depth : Nat) (lengths : List Nat) :
    (eachElement function x depth lengths).attached = true := by
  induction lengths generalizing depth with
  | nil => rfl
  | cons n lengths ih => exact ih _

end Emitter.Reading
