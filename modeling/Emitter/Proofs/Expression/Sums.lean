import Emitter.Proofs.Expression.Alone
import Emitter.Proofs.Expression.Faithful

/-!
# Interpolated strings as sums

ActionScript has no interpolated strings, so one is printed as a sum that starts with a text. Then
every plus sign has a text on its left, and joins: no two arguments are added as numbers. What is
shown of an interpolated string asks only that the printed text of each argument reads as that
argument where it stands alone.
-/

namespace Emitter

open Layout Program Reading

namespace Context

/-- A text between two arguments. An empty one is left out. -/
def textAddend (text : String) : List Tree := if text ≠ "" then [.text text] else []

/-- The text that the sum starts with, also where it is empty. -/
def firstText : List (Hole × Term) → String → String
  | [], suffix => suffix
  | (hole, _) :: _, _ => hole.before

/-- What is added to the first text. -/
def addends : List (Hole × Term) → String → List Tree
  | [], _ => []
  | (_, arg) :: rest, suffix =>
    arg.tree :: (rest.flatMap fun (hole, arg) => textAddend hole.before ++ [arg.tree]) ++
      textAddend suffix

/-- A sum that associates to the left. -/
def leftSum (first : Tree) (addends : List Tree) : Tree := addends.foldl (.binary "+") first

theorem leftSum_append (first : Tree) (as bs : List Tree) :
    leftSum first (as ++ bs) = leftSum (leftSum first as) bs := List.foldl_append

theorem leftSum_textAddend (first : Tree) (text : String) :
    leftSum first (textAddend text) =
      if text ≠ "" then .binary "+" first (.text text) else first := by
  unfold textAddend
  split_ifs <;> rfl

theorem sumTree_eq (sum : Tree) (holes : List (Hole × Term)) :
    sumTree sum holes =
      leftSum sum (holes.flatMap fun (hole, arg) => textAddend hole.before ++ [arg.tree]) := by
  induction holes generalizing sum with
  | nil => rfl
  | cons part rest ih =>
      rw [sumTree, ih, List.flatMap_cons, leftSum_append, leftSum_append, leftSum_textAddend]
      rfl

/-- The tree of an interpolated string is a sum that associates to the left and starts with a
text. -/
theorem interpolatedTree_eq (holes : List (Hole × Term)) (suffix : String) :
    interpolatedTree holes suffix =
      leftSum (.text (firstText holes suffix)) (addends holes suffix) := by
  cases holes with
  | nil => rfl
  | cons part rest =>
      rw [addends, List.cons_append, firstText, leftSum, List.foldl_cons, ← leftSum,
        leftSum_append, leftSum_textAddend, ← sumTree_eq]
      rfl

end Context

/-! That a text reads as a sum does not say what the sum computes. The language is therefore a
parameter, of which only the rule for `+` behind a text is known. -/

/-- A language in which `+` joins as soon as a text is on its left. Operands are computed from left
to right, with whatever effects they have. -/
structure Joining (m : Type → Type) [Monad m] (Value : Type) where
  value : Tree → m Value
  text : String → Value
  shown : Value → String
  plus : Value → Value → Value
  value_text : ∀ s, value (.text s) = pure (text s)
  value_plus : ∀ left right, value (.binary "+" left right) = do
    let a ← value left
    let b ← value right
    return plus a b
  plus_text : ∀ s b, plus (text s) b = text (s ++ shown b)
  shown_text : ∀ s, shown (text s) = s

/-- The arguments with the text before each of them, and the suffix. -/
def interleaved : List (String × String) → String → String
  | [], suffix => suffix
  | (before, arg) :: rest, suffix => before ++ arg ++ interleaved rest suffix

namespace Joining

open Context

variable {m : Type → Type} [Monad m] [LawfulMonad m] {Value : Type}

/-- Each argument is computed and shown behind the text before it. -/
def pieces (J : Joining m Value) (holes : List (Hole × Term)) : m (List (String × String)) :=
  holes.mapM fun (hole, arg) => do return (hole.before, J.shown (← J.value arg.tree))

variable {J : Joining m Value} {sum : Tree} {joined : m String}

/-- What is added to a text is joined to it. -/
theorem value_plus_of_text (hsum : J.value sum = J.text <$> joined) (addend : Tree) :
    J.value (.binary "+" sum addend) =
      J.text <$> (do return (← joined) ++ J.shown (← J.value addend)) := by
  have hplus : ∀ s, J.plus (J.text s) = fun b => J.text (s ++ J.shown b) := fun s =>
    funext (J.plus_text s)
  rw [J.value_plus, hsum]
  simp [hplus]

theorem value_textAddend (hsum : J.value sum = J.text <$> joined) (text : String) :
    J.value (leftSum sum (textAddend text)) = J.text <$> ((· ++ text) <$> joined) := by
  rw [leftSum_textAddend]
  split_ifs with htext
  · rw [value_plus_of_text hsum, J.value_text]
    simp [J.shown_text]
  · obtain rfl := not_not.mp htext
    simpa using hsum

/-- One more argument, with the text before it. -/
theorem value_addend (hsum : J.value sum = J.text <$> joined) (hole : Hole) (arg : Term) :
    J.value (leftSum sum (textAddend hole.before ++ [arg.tree])) = J.text <$> (do
      let before ← joined
      let shown ← J.value arg.tree
      return before ++ hole.before ++ J.shown shown) := by
  rw [leftSum_append]
  exact (value_plus_of_text (value_textAddend hsum hole.before) arg.tree).trans (by simp)

/-- Any number of arguments behind a text, and the suffix. -/
theorem value_addends (hsum : J.value sum = J.text <$> joined) (holes : List (Hole × Term))
    (suffix : String) :
    J.value (leftSum sum ((holes.flatMap fun (hole, arg) => textAddend hole.before ++ [arg.tree]) ++
        textAddend suffix)) = J.text <$> (do
      let before ← joined
      let pieces ← J.pieces holes
      return before ++ interleaved pieces suffix) := by
  induction holes generalizing sum joined with
  | nil => simpa [pieces, interleaved] using value_textAddend hsum suffix
  | cons part rest ih =>
      obtain ⟨hole, arg⟩ := part
      rw [List.flatMap_cons, List.append_assoc, leftSum_append, ih (value_addend hsum hole arg)]
      simp [pieces, interleaved, String.append_assoc]

/-- The value of the sum is a text: what is interpolated, in order. -/
theorem value_interpolated (J : Joining m Value) (holes : List (Hole × Term)) (suffix : String) :
    J.value (leftSum (.text (firstText holes suffix)) (addends holes suffix)) =
      (fun pieces => J.text (interleaved pieces suffix)) <$> J.pieces holes := by
  cases holes with
  | nil => simp [leftSum, firstText, addends, J.value_text, pieces, interleaved]
  | cons part rest =>
      obtain ⟨hole, arg⟩ := part
      have hfirst : J.value (.text hole.before) = J.text <$> (pure hole.before : m String) := by
        rw [J.value_text, map_pure]
      have hsum := value_addends (value_plus_of_text hfirst arg.tree) rest suffix
      rw [firstText, addends, List.cons_append, leftSum, List.foldl_cons, ← leftSum]
      refine hsum.trans ?_
      simp [pieces, interleaved, String.append_assoc]

/-- Texts and integers as they are shown. -/
def plainShown : String ⊕ Int → String
  | .inl s => s
  | .inr n => toString n

def plainPlus : String ⊕ Int → String ⊕ Int → String ⊕ Int
  | .inr a, .inr b => .inr (a + b)
  | a, b => .inl (plainShown a ++ plainShown b)

/-- The value of a tree of texts, names, sums and choices. -/
def plainValue (env : String → Int) : Tree → String ⊕ Int
  | .text s => .inl s
  | .name w => .inr (env w)
  | .binary "+" left right => plainPlus (plainValue env left) (plainValue env right)
  | .select cond onTrue onFalse =>
    if plainValue env cond = .inr 0 then plainValue env onFalse else plainValue env onTrue
  | _ => .inr 0

/-- The language of texts and integers, with integers for names. -/
def plain (env : String → Int) : Joining Id (String ⊕ Int) where
  value := plainValue env
  text := .inl
  shown := plainShown
  plus := plainPlus
  value_text _ := rfl
  value_plus _ _ := rfl
  plus_text _ _ := rfl
  shown_text _ := rfl

end Joining

/-- Wherever the expression is an operand, next to operands that read alone, the printed operation
reads as that operation on whole operands. -/
structure Context.StandsWhole (cx : Context) (e : Expr) : Prop where
  unary : ∀ op ty, cx.ReadsAlone (.unary op e ty)
  left : ∀ op other ty, cx.ReadsAlone other → cx.ReadsAlone (.binary e op other ty)
  right : ∀ op other ty, cx.ReadsAlone other → cx.ReadsAlone (.binary other op e ty)
  select : ∀ a b ty, cx.ReadsAlone a → cx.ReadsAlone b → cx.ReadsAlone (.select e a b ty) ∧
    cx.ReadsAlone (.select a e b ty) ∧ cx.ReadsAlone (.select a b e ty)
  index : ∀ position ty, cx.ReadsAlone position → cx.ReadsAlone (.index e position ty)
  property : ∀ accessor ty, cx.ReadsAlone (.property e accessor ty)

namespace ActionScript

open Context

variable {cx : Context} {e : Expr} {code : Code}

theorem standsWhole (ht : cx.target = .actionScript) (h : cx.ReadsAlone e)
    (hprio : cx.target.priority e < .prefixed) : cx.StandsWhole e where
  unary op ty := h.unary hprio op ty
  left op other ty hother := readsAlone_binary ht h hother op ty
  right op other ty hother := readsAlone_binary ht hother h op ty
  select a b ty ha hb := ⟨h.selected ha hb ty, ha.selected h hb ty, ha.selected hb h ty⟩
  index position ty hposition := h.index (Nat.lt_trans hprio (by decide)) hposition ty
  property accessor ty := by
    by_cases hlength : accessor = .stringLength
    · rw [hlength]
      exact readsAlone_length ht h (Nat.lt_trans hprio (by decide)) ty
    · exact h.byteProperty hlength ty

/-- A value behind a plus sign. -/
theorem readsAt_summand {sum shown : Code} {tree : Tree} (hsum : sum.ReadsAt cx.target 9 tree)
    (h : cx.ReadsAlone e) (hc : (cx.operand e).above .add = .ok shown) :
    (sum ++ Code.operator "+" ++ shown).ReadsAt cx.target 9 (.binary "+" tree (cx.tree e)) :=
  .binary "+" rfl hsum (h.above (by decide) (by decide) hc)

/-- A text behind a plus sign, unless it is empty. -/
theorem readsAt_textAddend {sum : Code} {tree : Tree} (hsum : sum.ReadsAt cx.target 9 tree)
    (text : String) :
    Code.ReadsAt cx.target 9
      (sum ++ if text ≠ "" then Code.operator "+" ++ ([.quoted text] : Code) else [])
      (leftSum tree (textAddend text)) := by
  rw [leftSum_textAddend]
  split_ifs
  · have htext : Code.ReadsAt cx.target 10 [.quoted text] (.text text) :=
      (Code.ReadsAt.text text).mono (by decide)
    rw [← List.append_assoc]
    exact .binary "+" rfl hsum htext
  · rwa [List.append_nil]

/-- The texts and values behind those that are summed up already. -/
theorem readsAt_interpolatedTail {parts : List Part} (h : ∀ part ∈ parts, cx.ReadsAlone part.arg)
    {sum chain : Code} {tree : Tree} (hsum : sum.ReadsAt cx.target 9 tree)
    (hc : interpolatedTail cx false (cx.holes parts) = .ok chain) :
    (sum ++ chain).ReadsAt cx.target 9 (sumTree tree (cx.holeTerms parts)) := by
  induction parts generalizing sum chain tree with
  | nil =>
      obtain rfl := Except.ok.inj hc
      simpa [holeTerms, sumTree] using hsum
  | cons part rest ih =>
      obtain ⟨hole, arg⟩ := part
      obtain ⟨harg, hrest⟩ := List.forall_mem_cons.mp h
      obtain ⟨shown, others, hshown, hothers, rfl⟩ := interpolatedTail_cons_eq_ok hc
      have hnext := readsAt_summand (readsAt_textAddend hsum hole.before) harg hshown
      rw [leftSum_textAddend] at hnext
      simpa [holeTerms, sumTree, Part.arg] using ih hrest hnext hothers

theorem readsAlone_interpolated (ht : cx.target = .actionScript) {parts : List Part}
    (h : ∀ part ∈ parts, cx.ReadsAlone part.arg) (suffix : String) (ty : Ty) :
    cx.ReadsAlone (.interpolated parts suffix ty) := by
  intro code hc
  rw [Context.code] at hc
  simp only [ht] at hc
  obtain ⟨chain, hchain, hc⟩ := Result.bind_eq_ok.mp hc
  rw [tree]
  cases parts with
  | nil =>
      obtain rfl := Except.ok.inj hc
      exact (Code.ReadsAt.text suffix).readsAs
  | cons part rest =>
      obtain ⟨hole, arg⟩ := part
      obtain ⟨harg, hrest⟩ := List.forall_mem_cons.mp h
      obtain ⟨shown, others, hshown, hothers, rfl⟩ := interpolatedTail_cons_eq_ok hchain
      have hfirst : Code.ReadsAt cx.target 9 [.quoted hole.before] (.text hole.before) :=
        (Code.ReadsAt.text hole.before).mono (by decide)
      have hsum := readsAt_interpolatedTail hrest (readsAt_summand hfirst harg hshown) hothers
      have hwhole := readsAt_textAddend hsum suffix
      rw [leftSum_textAddend] at hwhole
      have htree : interpolatedTree (cx.holeTerms (.mk hole arg :: rest)) suffix =
          if suffix ≠ "" then .binary "+" (sumTree (.binary "+" (.text hole.before) (cx.tree arg))
            (cx.holeTerms rest)) (.text suffix)
          else sumTree (.binary "+" (.text hole.before) (cx.tree arg)) (cx.holeTerms rest) := by
        rw [holeTerms, interpolatedTree]
      rw [htree]
      simp only [holes, List.isEmpty_cons, Bool.false_eq_true, if_false, if_true] at hc
      split_ifs at hc hwhole ⊢ with hsuffix
      · obtain rfl := Except.ok.inj hc
        simpa [Part.arg] using hwhole.readsAs
      · obtain rfl := Except.ok.inj hc
        simpa [Part.arg] using hwhole.readsAs

/-- **Interpolated strings.** Where the printed text of each argument reads as that argument on its
own, a printed interpolated string reads as a sum that associates to the left and starts with a
text. Wherever `+` joins behind a text, its value is the text before the first argument, that
argument, the next text and so on to the suffix. The sum stays whole as an operand of any
operator. -/
theorem interpolated_joins (ht : cx.target = .actionScript) {parts : List Part} {suffix : String}
    {ty : Ty} (hargs : ∀ part ∈ parts, cx.ReadsAlone part.arg)
    (hc : cx.code (.interpolated parts suffix ty) = .ok code) :
    code.ReadsAs cx.target (leftSum (.text (firstText (cx.holeTerms parts) suffix))
      (addends (cx.holeTerms parts) suffix)) ∧
    (∀ {m : Type → Type} [Monad m] [LawfulMonad m] {Value : Type} (J : Joining m Value),
      J.value (leftSum (.text (firstText (cx.holeTerms parts) suffix))
        (addends (cx.holeTerms parts) suffix)) =
          (fun pieces => J.text (interleaved pieces suffix)) <$> J.pieces (cx.holeTerms parts)) ∧
    cx.StandsWhole (.interpolated parts suffix ty) := by
  have hreads : cx.ReadsAlone (.interpolated parts suffix ty) :=
    readsAlone_interpolated ht hargs suffix ty
  have hprio : cx.target.priority (.interpolated parts suffix ty) < .prefixed := by
    rw [ht]
    exact show Priority.add < .prefixed by decide
  refine ⟨?_, fun J => J.value_interpolated _ _, standsWhole ht hreads hprio⟩
  rw [← interpolatedTree_eq]
  simpa [tree] using hreads code hc

/-- A sum, a choice and another interpolated string as arguments, with empty texts between them. -/
theorem interpolated_joins_nested :
    let cx : Context := ⟨.empty, .actionScript, none⟩
    let name (text : String) : Expr := .var text (.int .int)
    let hole (before : String) : Hole := ⟨before, none, none, none⟩
    let inner : Expr := .interpolated [.mk (hole "") (name "n")] "!" .string
    let parts : List Part := [.mk (hole "") (.binary (name "a") .add (name "b") (.int .int)),
      .mk (hole "") (.select (name "c") (name "x") (name "y") (.int .int)),
      .mk (hole " of ") inner]
    ∃ code, cx.code (.interpolated parts "" .string) = .ok code ∧
      code.text = "\"\" + (a + b) + (c ? x : y) + \" of \" + (\"\" + n + \"!\")" ∧
      code.ReadsAs cx.target (leftSum (.text "")
        [.binary "+" (.name "a") (.name "b"), .select (.name "c") (.name "x") (.name "y"),
          .text " of ", leftSum (.text "") [.name "n", .text "!"]]) ∧
      (Joining.plain fun w => if w = "n" then 7 else 2).value
        (cx.tree (.interpolated parts "" .string)) =
        .inl "42 of 7!" ∧
      cx.StandsWhole (.interpolated parts "" .string) := by
  intro cx name hole inner parts
  have hnamed : cx.program.Named cx.target :=
    ⟨by simp [cx, Program.empty], by simp [cx, Program.empty]⟩
  have hargs : ∀ part ∈ parts, cx.ReadsAlone part.arg := by
    have hlegible : ∀ part ∈ parts, part.arg.everywhere Expr.isNamed = true ∧
        part.arg.everywhere cx.isLegible = true := by
      simp only [parts, List.forall_mem_cons]
      decide
    exact fun part hpart code hc =>
      readsAs_tree hnamed (hlegible part hpart).1 (hlegible part hpart).2 hc
  have hcode : cx.code (.interpolated parts "" .string) = .ok _ := rfl
  obtain ⟨hreads, hvalue, hwhole⟩ := interpolated_joins rfl hargs hcode
  exact ⟨_, hcode, by decide, hreads,
    (hvalue (Joining.plain fun w => if w = "n" then 7 else 2)).trans (by rfl), hwhole⟩

/-- A minus in front of a negative literal is printed as a decrement, also where it is an
argument. -/
theorem not_readsAs_interpolated_minus :
    let cx : Context := ⟨.empty, .actionScript, none⟩
    let half : Expr := .literal (.float ⟨0xBFE0000000000000⟩) (.float .double)
    let arg : Expr := .unary .neg half (.float .double)
    let parts : List Part := [.mk ⟨"", none, none, none⟩ arg]
    ∃ code, cx.code (.interpolated parts "" .string) = .ok code ∧ code.text = "\"\" + --0.5" ∧
      cx.tree arg = .prefixed "-" (.prefixed "-" (.number "0.5")) ∧
      code.ReadsAs cx.target (leftSum (.text "") [.prefixed "--" (.number "0.5")]) ∧
      ¬code.ReadsAs cx.target (leftSum (.text (firstText (cx.holeTerms parts) ""))
        (addends (cx.holeTerms parts) "")) := by
  intro cx half arg parts
  have hcode : cx.code (.interpolated parts "" .string) =
      .ok [.quoted "", .gap, .symbol "+", .gap, .symbol "-", .symbol "-", .number "0.5"] := by
    decide +kernel
  have htree : cx.tree arg = .prefixed "-" (.prefixed "-" (.number "0.5")) := by
    have hhalf : ∀ x : Number.Binary64, x = ⟨0xBFE0000000000000⟩ → x.isNaN = false ∧
        x.isNegative = true ∧ x.isInfinite = false ∧ x.magnitudeText = "0.5" := by
      rintro x rfl
      decide +kernel
    simp [arg, half, tree, unaryTree, UnaryOp.isPostfix, UnaryOp.text, literalTree, floatTree,
      Tree.signed, hhalf _ rfl]
  have hscan : scan "\"\" + --0.5" =
      some [.quoted "", .symbol "+", .symbol "--", .number "0.5"] := by decide
  have hminus : .symbol "--" ∈ prefixOperators cx.target := by decide
  have hdecrement : Parses cx.target 11 [.symbol "--", .number "0.5"]
      (.prefixed "--" (.number "0.5")) :=
    .prefixed hminus ((Parses.number "0.5").mono (by decide))
  have hplus : binaryLevel? "+" = some 9 := rfl
  have hsum := Parses.binary hplus ((Parses.text "").mono (by decide)) (hdecrement.mono (by decide))
  have hreads : Code.ReadsAs cx.target
      [.quoted "", .gap, .symbol "+", .gap, .symbol "-", .symbol "-", .number "0.5"]
      (leftSum (.text "") [.prefixed "--" (.number "0.5")]) := by
    refine ⟨_, hscan, fun tree' => ⟨fun h => h.unique hsum, ?_⟩⟩
    rintro rfl
    exact hsum.mono (by decide)
  refine ⟨_, hcode, by decide, htree, hreads, fun hclaimed => ?_⟩
  have hsame :
      leftSum (.text "") [.prefixed "--" (.number "0.5")] = leftSum (.text "") [cx.tree arg] :=
    hreads.unique hclaimed rfl
  simp [leftSum, htree] at hsame

end ActionScript

end Emitter
