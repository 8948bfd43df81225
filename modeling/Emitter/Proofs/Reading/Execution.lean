import Emitter.Proofs.Reading.Loose
import Emitter.Proofs.Reading.Shapes

/-!
# Running the statements of a constructor

What statements do to the instance that `self` points to, as far as constructors are printed: a
simple statement assigns to a field or calls a function with the address of a part of the instance,
and a loop counts from one number up to another. A counter that would get past the largest number
of its type has no next value, so such a run has no result.
-/

namespace Emitter.Reading

open Layout

/-- A part of an instance: one of its fields, and an index for each array around the part. -/
structure Place where
  field : String
  indices : List Nat
  deriving DecidableEq

/-- What a simple statement does: it assigns a value, which is kept as its tokens, or it calls a
function with the address of a place. -/
inductive Event
  | assign (place : Place) (value : List Token)
  | call (function : String) (place : Place)
  deriving DecidableEq

/-- The counters of the loops around a statement and their values, the innermost first. -/
abbrev Counters := List (String × Nat)

/-- The values of the counters between pairs of brackets. -/
def readIndices (counters : Counters) : List Token → Option (List Nat)
  | [] => some []
  | .symbol "[" :: .word index :: .symbol "]" :: rest => do
    return (← List.lookup index counters) :: (← readIndices counters rest)
  | _ => none

/-- The place that is written `self->field`, with counters in brackets behind it. -/
def readPlace (counters : Counters) : List Token → Option Place
  | .word "self" :: .symbol "->" :: .word field :: rest => do
    return ⟨field, ← readIndices counters rest⟩
  | _ => none

/-- The call that is written `function(&place)`. -/
def readCall (counters : Counters) : List Token → Option Event
  | .word function :: .symbol "(" :: .symbol "&" :: ts => do
    let (inside, behind) ← cutAt ")" 0 ts
    if behind.isEmpty then return .call function (← readPlace counters inside) else none
  | _ => none

/-- The assignment that is written `place = value`. -/
def readAssignment (counters : Counters) (ts : List Token) : Option Event := do
  let (target, value) ← cutAt "=" 0 ts
  return .assign (← readPlace counters target) value

/-- What a simple statement does. -/
def act (counters : Counters) (ts : List Token) : Option Event :=
  (readCall counters ts).or (readAssignment counters ts)

/-- The loop whose head is written `for (int i = first; i < limit; i++)`: its counter and the two
numbers. -/
def readCount : List Token → List Token → List Token → Option (String × Nat × Nat)
  | [.word "int", .word index, .symbol "=", .number first],
      [.word tested, .symbol "<", .number limit], [.word counted, .symbol "++"] =>
    if tested = index ∧ counted = index then do return (index, ← first.toNat?, ← limit.toNat?)
    else none
  | _, _, _ => none

/-- The values of the counter in the rounds of a loop, from `i` on. The counter is raised after each
round, which has to leave it within its type. -/
def countFrom (largest : Option Nat) (limit i : Nat) : Option (List Nat) :=
  if i < limit then
    if ∀ most ∈ largest, i < most then do return i :: (← countFrom largest limit (i + 1)) else none
  else some []
termination_by limit - i

mutual

/-- What a statement does, in order. -/
def run (largest : Option Nat) (counters : Counters) : Shape → Option (List Event)
  | .simple ts => do return [← act counters ts]
  | .block stmts => runAll largest counters stmts
  | .forLoop start cond advance body => do
    let (index, first, limit) ← readCount start cond advance
    let rounds ← (← countFrom largest limit first).mapM fun i =>
      run largest ((index, i) :: counters) body
    return rounds.flatten
  | _ => none

/-- What statements do, one after the other. -/
def runAll (largest : Option Nat) (counters : Counters) : List Shape → Option (List Event)
  | [] => some []
  | s :: rest => do return (← run largest counters s) ++ (← runAll largest counters rest)

end

variable {largest : Option Nat} {counters : Counters} (function field : String)

theorem countFrom_eq {limit i : Nat} (h : ∀ most ∈ largest, limit ≤ most) :
    countFrom largest limit i = some (List.range' i (limit - i)) := by
  induction hk : limit - i generalizing i with
  | zero =>
      rw [countFrom, if_neg (by omega)]
      rfl
  | succ k ih =>
      have hround : ∀ most ∈ largest, i < most := fun most hmost => by
        have hle := h most hmost
        omega
      rw [countFrom, if_pos (by omega), if_pos hround, ih (by omega), List.range'_succ]
      rfl

/-- The lists are those with every index below its length, and they come in row-major order: a list
comes before another if it has the smaller index where they first differ. In particular each comes
once. -/
structure IsRowMajor (lengths : List Nat) (indices : List (List Nat)) : Prop where
  mem_iff : ∀ is, is ∈ indices ↔ List.Forall₂ (· < ·) is lengths
  ordered : indices.Pairwise (List.Lex (· < ·))

/-- The indices into an array of arrays. -/
def rowMajor : List Nat → List (List Nat)
  | [] => [[]]
  | n :: lengths => (List.range n).flatMap fun i => (rowMajor lengths).map (i :: ·)

theorem isRowMajor_rowMajor (lengths : List Nat) : IsRowMajor lengths (rowMajor lengths) := by
  induction lengths with
  | nil =>
      refine ⟨fun is => ?_, List.pairwise_singleton ..⟩
      rw [rowMajor, List.mem_singleton, List.forall₂_nil_right_iff]
  | cons n lengths ih =>
      refine ⟨fun is => ?_, ?_⟩
      · simp only [rowMajor, List.mem_flatMap, List.mem_range, List.mem_map, ih.mem_iff,
          List.forall₂_cons_right_iff]
        constructor
        · rintro ⟨i, hi, rest, hrest, rfl⟩
          exact ⟨i, rest, hi, hrest, rfl⟩
        · rintro ⟨i, rest, hi, hrest, rfl⟩
          exact ⟨i, hi, rest, hrest, rfl⟩
      · refine List.pairwise_flatMap.mpr ⟨fun i _ => ?_, ?_⟩
        · exact ih.ordered.map _ fun _ _ h => .cons h
        · refine List.pairwise_lt_range.imp fun {i j} hij => ?_
          intro is his js hjs
          obtain ⟨is, -, rfl⟩ := List.mem_map.mp his
          obtain ⟨js, -, rfl⟩ := List.mem_map.mp hjs
          exact .rel hij

/-- There is only one such order. -/
theorem IsRowMajor.unique {lengths : List Nat} {indices indices' : List (List Nat)}
    (h : IsRowMajor lengths indices) (h' : IsRowMajor lengths indices') : indices = indices' := by
  have hnodup : ∀ {indices : List (List Nat)}, IsRowMajor lengths indices → indices.Nodup := by
    intro indices h
    refine h.ordered.imp ?_
    rintro is js hlt rfl
    exact irrefl is hlt
  have hperm : indices.Perm indices' :=
    (List.perm_ext_iff_of_nodup (hnodup h) (hnodup h')).mpr fun is => by
      rw [h.mem_iff, h'.mem_iff]
  exact hperm.eq_of_pairwise (fun is js _ _ hlt hgt => (asymm hlt hgt).elim) h.ordered h'.ordered

/-! The loops around a call count in row-major order. Their counters are named for the depth of
nesting, so no inner loop sets the counter of an outer one. -/

/-- The name of the counter of the loop at a depth of nesting. -/
def counterName (depth : Nat) : String := "_i" ++ toString depth

theorem counterName_injective : Function.Injective counterName := by
  intro m n h
  exact Nat.repr_injective (String.append_right_inj _ |>.mp h)

/-- The place that the counters of that many loops lead to. -/
def placeTokens (field : String) (depth : Nat) : List Token :=
  .word "self" :: .symbol "->" :: .word field ::
    (List.range depth).flatMap fun k => [.symbol "[", .word (counterName k), .symbol "]"]

/-- A call of the function on every part of the field that is an array of arrays of the lengths. -/
def eachCall (function field : String) : Nat → List Nat → Shape
  | depth, [] => .simple
      (.word function :: .symbol "(" :: .symbol "&" :: (placeTokens field depth ++ [.symbol ")"]))
  | depth, n :: lengths => .forLoop
      [.word "int", .word (counterName depth), .symbol "=", .number "0"]
      [.word (counterName depth), .symbol "<", .number (toString n)]
      [.word (counterName depth), .symbol "++"] (eachCall function field (depth + 1) lengths)

theorem placeTokens_succ (depth : Nat) : placeTokens field (depth + 1) =
    placeTokens field depth ++
      [Token.symbol "[", Token.word (counterName depth), Token.symbol "]"] := by
  simp [placeTokens, List.range_succ]

theorem balanced_placeTokens (depth : Nat) : Balanced (placeTokens field depth) := by
  induction depth with
  | zero => exact fun _ => rfl
  | succ depth ih =>
      rw [placeTokens_succ]
      have hindex : Balanced [.word (counterName depth)] := .singleton fun _ => rfl
      exact ih.append (hindex.bracketed (by decide) (by decide))

theorem readIndices_eq_some {names : List String} {values : List Nat}
    (h : List.Forall₂ (fun name i => List.lookup name counters = some i) names values) :
    readIndices counters (names.flatMap fun name => [.symbol "[", .word name, .symbol "]"]) =
      some values := by
  induction h with
  | nil => rfl
  | cons hname _ ih => simp [readIndices, hname, ih]

/-- The counters of the loops around a statement have the values, the outermost first. -/
def Counts (counters : Counters) (values : List Nat) : Prop :=
  ∀ depth i, values[depth]? = some i → List.lookup (counterName depth) counters = some i

theorem counts_nil (counters : Counters) : Counts counters [] := by
  intro depth i h
  simp at h

/-- One loop further in, the counters of the loops around have the values they had. -/
theorem Counts.append {values : List Nat} (h : Counts counters values) (i : Nat) :
    Counts ((counterName values.length, i) :: counters) (values ++ [i]) := by
  intro depth j hj
  by_cases hdepth : depth < values.length
  · have hne : counterName depth ≠ counterName values.length := fun heq => by
      have hsame := counterName_injective heq
      omega
    rw [List.getElem?_append_left hdepth] at hj
    rw [List.lookup_cons, beq_false_of_ne hne]
    exact h depth j hj
  · obtain rfl : depth = values.length := by
      have hlt := (List.getElem?_eq_some_iff.mp hj).1
      rw [List.length_append, List.length_singleton] at hlt
      omega
    rw [List.getElem?_concat_length] at hj
    rw [List.lookup_cons, beq_self_eq_true]
    exact hj

theorem readPlace_placeTokens {values : List Nat} (h : Counts counters values) :
    readPlace counters (placeTokens field values.length) = some ⟨field, values⟩ := by
  have hvalues : List.Forall₂ (fun name i => List.lookup name counters = some i)
      ((List.range values.length).map counterName) values := by
    refine List.forall₂_iff_get.mpr ⟨by simp, fun depth hdepth hdepth' => ?_⟩
    have hlookup := h depth values[depth] (List.getElem?_eq_getElem hdepth')
    simpa using hlookup
  have hindices := readIndices_eq_some hvalues
  rw [List.flatMap_map] at hindices
  rw [placeTokens, readPlace, hindices]
  rfl

theorem act_call {values : List Nat} (h : Counts counters values) :
    act counters (.word function :: .symbol "(" :: .symbol "&" ::
      (placeTokens field values.length ++ [Token.symbol ")"])) =
        some (.call function ⟨field, values⟩) := by
  have hcut : cutAt ")" 0 (placeTokens field values.length ++ [Token.symbol ")"]) =
      some (placeTokens field values.length, []) :=
    (balanced_placeTokens field values.length).cutAt (by decide) []
  have hplace := readPlace_placeTokens field h
  have hcall : readCall counters (.word function :: .symbol "(" :: .symbol "&" ::
      (placeTokens field values.length ++ [Token.symbol ")"])) =
        some (.call function ⟨field, values⟩) := by
    rw [readCall, hcut]
    simp [hplace]
  rw [act, hcall, Option.some_or]

theorem readCount_eachCall (index : String) (n : Nat) :
    readCount [.word "int", .word index, .symbol "=", .number "0"]
      [.word index, .symbol "<", .number (toString n)] [.word index, .symbol "++"] =
        some (index, 0, n) := by
  have hfirst : ("0" : String).toNat? = some 0 := Nat.toNat?_repr 0
  have hlimit : (toString n).toNat? = some n := Nat.toNat?_repr n
  rw [readCount, if_pos ⟨rfl, rfl⟩, hfirst, hlimit]
  rfl

/-- The loops call the function on every part once, in row-major order. -/
theorem run_eachCall (lengths : List Nat) {values : List Nat} (h : Counts counters values)
    (hlengths : ∀ most ∈ largest, ∀ n ∈ lengths, n ≤ most) :
    run largest counters (eachCall function field values.length lengths) =
      some ((rowMajor lengths).map fun is => .call function ⟨field, values ++ is⟩) := by
  induction lengths generalizing counters values with
  | nil =>
      rw [eachCall, run, act_call function field h]
      simp [rowMajor]
  | cons n lengths ih =>
      have hrounds : countFrom largest n 0 = some (List.range n) := by
        rw [countFrom_eq fun most hmost => hlengths most hmost n (List.mem_cons_self ..),
          Nat.sub_zero, List.range_eq_range']
      have hround : ∀ i, run largest ((counterName values.length, i) :: counters)
          (eachCall function field (values.length + 1) lengths) =
            some ((rowMajor lengths).map fun is => .call function ⟨field, values ++ i :: is⟩) := by
        intro i
        have hinner := ih (h.append i) fun most hmost m hm =>
          hlengths most hmost m (List.mem_cons_of_mem _ hm)
        simpa using hinner
      have hall := List.mapM_pure (m := Option) (l := List.range n) (f := fun i =>
        (rowMajor lengths).map fun is => Event.call function ⟨field, values ++ i :: is⟩)
      rw [eachCall, run, readCount_eachCall]
      simp only [Option.bind_eq_bind, Option.bind_some, hrounds, hround]
      refine (congrArg (Option.bind · _) hall).trans ?_
      simp [rowMajor, List.flatMap_def, Function.comp_def]

theorem act_assign (value : List Token) : act counters
    (.word "self" :: .symbol "->" :: .word field :: .symbol "=" :: value) =
      some (.assign ⟨field, []⟩ value) := by
  have hcut : cutAt "=" 0 (.word "self" :: .symbol "->" :: .word field :: .symbol "=" :: value) =
      some ([.word "self", .symbol "->", .word field], value) := by
    simp [cutAt, Token.depthAfter]
  simp [act, readCall, readAssignment, hcut, readPlace, readIndices]

theorem runAll_append {as bs : List Shape} {before after : List Event}
    (ha : runAll largest counters as = some before) (hb : runAll largest counters bs = some after) :
    runAll largest counters (as ++ bs) = some (before ++ after) := by
  induction as generalizing before with
  | nil =>
      obtain rfl := Option.some.inj ha
      exact hb
  | cons s rest ih =>
      simp only [runAll, Option.bind_eq_bind, Option.bind_eq_some_iff] at ha
      obtain ⟨first, hfirst, more, hmore, ha⟩ := ha
      obtain rfl := Option.some.inj ha
      simp [runAll, hfirst, ih hmore]

theorem sane_eachCall (hfunction : .word function ∉ Shape.openers) (depth : Nat)
    (lengths : List Nat) : (eachCall function field depth lengths).Sane := by
  induction lengths generalizing depth with
  | nil =>
      have hfirst : Balanced [.word function] ∧ Balanced [.symbol "&"] :=
        ⟨fun _ => rfl, fun _ => rfl⟩
      have haddress : Balanced (.symbol "&" :: placeTokens field depth) :=
        hfirst.2.append (balanced_placeTokens field depth)
      have hcall : Balanced (.word function :: .symbol "(" :: .symbol "&" ::
          (placeTokens field depth ++ [Token.symbol ")"])) :=
        hfirst.1.append (haddress.bracketed (by decide) (by decide))
      simp only [eachCall, Shape.Sane]
      refine ⟨hcall, fun t ht => ?_⟩
      obtain rfl := Option.some.inj ht
      exact hfunction
  | cons n lengths ih =>
      simp only [eachCall, Shape.Sane]
      exact ⟨fun _ => rfl, fun _ => rfl, fun _ => rfl, ih _⟩

theorem attached_eachCall (depth : Nat) (lengths : List Nat) :
    (eachCall function field depth lengths).attached = true := by
  induction lengths generalizing depth with
  | nil => rfl
  | cons n lengths ih => exact ih _

/-- A text of statements is read in front of a text that is read as the rest of a block. -/
theorem Shape.readShape_append {stmts more : List Shape} (hsane : SaneAll stmts)
    (hattached : attachedAll stmts = true) {opener first last : List Char}
    (hopen : Settles opener [.symbol "\x7b"]) (hfirst : Settles first (tokensOf stmts))
    (h : readShape (String.ofList (opener ++ last)) = some (.block more)) :
    readShape (String.ofList (opener ++ (first ++ last))) = some (.block (stmts ++ more)) := by
  obtain ⟨ts, hts, h⟩ := Option.bind_eq_some_iff.mp h
  obtain ⟨⟨s, rest⟩, hread, h⟩ := Option.bind_eq_some_iff.mp h
  obtain ⟨hempty, rfl⟩ : rest.isEmpty = true ∧ s = .block more := by simpa using h
  rw [scan, String.toList_ofList, hopen] at hts
  obtain ⟨us, hus, rfl⟩ := Option.map_eq_some_iff.mp hts
  rw [List.singleton_append, readStatement, if_pos rfl] at hread
  obtain ⟨⟨inner, behind⟩, hblock, hread⟩ := Option.bind_eq_some_iff.mp hread
  obtain ⟨hinner, rfl⟩ := Prod.mk.inj (Option.some.inj hread)
  obtain rfl := Shape.block.inj hinner
  have hblock : readBlock (us.length + 1) us = some (inner, behind) := hblock
  have hfuel : 1 < us.length + 1 := by
    cases us with
    | nil => simp [readBlock, readStatement] at hblock
    | cons u us => simp
  -- Each token in front takes one more step.
  have hall := readBlock_append hsane hattached hfuel hblock
  have hscan : scan (String.ofList (opener ++ (first ++ last))) =
      some (.symbol "\x7b" :: (tokensOf stmts ++ us)) := by
    rw [scan, String.toList_ofList, hopen, hfirst, hus]
    rfl
  have hlength : (tokensOf stmts ++ us).length + 1 =
      us.length + 1 + (tokensOf stmts).length := by
    rw [List.length_append]
    omega
  have hread : readStatement ((tokensOf stmts ++ us).length + 1 + 1)
      (.symbol "\x7b" :: (tokensOf stmts ++ us)) = some (.block (stmts ++ inner), behind) := by
    rw [readStatement, if_pos rfl, hlength, hall]
    rfl
  rw [readShape, hscan]
  simp only [Option.bind_eq_bind, Option.bind_some, List.length_cons, hread, hempty, if_true]

end Emitter.Reading
