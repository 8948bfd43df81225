import Emitter.Proofs.Reading.Grammar
import Mathlib.Tactic

/-!
# An expression has one tree

A deterministic reader takes the tokens of an expression one after the other. What it has begun
and not finished lies on a stack; an operator first closes everything on the stack that binds at
least as tight. The reader finds the tree of every expression, so there is only one.
-/

namespace Emitter.Reading

/-- Something begun that waits for an operand, or for the end of its brackets. -/
inductive Frame
  | group
  | items (elements : List Tree)
  | args (callee : Tree) (before : List Tree)
  | position (array : Tree)
  | prefixed (op : String)
  | cast (type : List String)
  | operator (left : Tree) (op : String) (level : Nat)
  | onTrue (cond : Tree)
  | onFalse (cond onTrue : Tree)

/-- How tight the frame holds the operand it waits for. Brackets do not let go of it at all. -/
def Frame.strength : Frame → Option Nat
  | prefixed _ | cast _ => some 10
  | operator _ _ level => some level
  | onFalse .. => some 0
  | _ => none

/-- The tree that a frame without brackets makes of its operand. -/
def Frame.fill : Frame → Tree → Tree
  | prefixed op, tree => .prefixed op tree
  | cast type, tree => .cast type tree
  | operator left op _, tree => .binary op left tree
  | onFalse cond first, tree => .select cond first tree
  | _, tree => tree

/-- Closes all that holds at least as tight as `level`. -/
def collapse (level : Nat) : List Frame → Tree → List Frame × Tree
  | [], tree => ([], tree)
  | frame :: stack, tree =>
    if frame.strength.any (level ≤ ·) then collapse level stack (frame.fill tree)
    else (frame :: stack, tree)

/-- Where the reader is: in front of an operand, behind one, behind a selector, or in the
parentheses of a type. -/
inductive State
  | before (stack : List Frame)
  | behind (stack : List Frame) (tree : Tree)
  | selecting (stack : List Frame) (tree : Tree) (selector : String)
  | typing (stack : List Frame) (words : List String)

/-- A symbol behind an operand. -/
def stepSymbol (stack : List Frame) (tree : Tree) (s : String) : Option State :=
  if s = "++" ∨ s = "--" then some (.behind stack (.postfixed s tree))
  else if s = "." ∨ s = "->" then some (.selecting stack tree s)
  else if s = "[" then some (.before (.position tree :: stack))
  else if s = "(" then some (.before (.args tree [] :: stack))
  else if s = "?" then
    let (stack, cond) := collapse 1 stack tree
    some (.before (.onTrue cond :: stack))
  else if s = ":" then
    match collapse 0 stack tree with
    | (.onTrue cond :: stack, tree) => some (.before (.onFalse cond tree :: stack))
    | _ => none
  else if s = "," then
    match collapse 0 stack tree with
    | (.args callee before :: stack, tree) =>
      some (.before (.args callee (before ++ [tree]) :: stack))
    | (.items elements :: stack, tree) => some (.before (.items (elements ++ [tree]) :: stack))
    | _ => none
  else if s = ")" then
    match collapse 0 stack tree with
    | (.group :: stack, tree) => some (.behind stack tree)
    | (.args callee before :: stack, tree) => some (.behind stack (.call callee (before ++ [tree])))
    | _ => none
  else if s = "]" then
    match collapse 0 stack tree with
    | (.position array :: stack, tree) => some (.behind stack (.element array tree))
    | (.items elements :: stack, tree) => some (.behind stack (.items (elements ++ [tree])))
    | _ => none
  else
    (binaryLevel? s).map fun level =>
      let (stack, left) := collapse level stack tree
      .before (.operator left s level :: stack)

def stepBehind (stack : List Frame) (tree : Tree) : Token → Option State
  | .symbol s => stepSymbol stack tree s
  | _ => none

def stepBefore (t : Target) (stack : List Frame) (token : Token) : Option State :=
  if token ∈ prefixOperators t then some (.before (.prefixed token.text :: stack))
  else
    match token, stack with
    | .word w, .group :: _ =>
      if w ∈ typeWords t then some (.typing stack [w]) else some (.behind stack (.name w))
    | .word w, _ => some (.behind stack (.name w))
    | .number s, _ => some (.behind stack (.number s))
    | .quoted s, _ => some (.behind stack (.text s))
    | .symbol s, _ =>
      if s = "(" then some (.before (.group :: stack))
      else if s = "[" then some (.before (.items [] :: stack))
      else
        match s, stack with
        | ")", .args callee [] :: stack => some (.behind stack (.call callee []))
        | "]", .items [] :: stack => some (.behind stack (.items []))
        | _, _ => none

def step (t : Target) : State → Token → Option State
  | .before stack, token => stepBefore t stack token
  | .behind stack tree, token => stepBehind stack tree token
  | .selecting stack tree selector, .word w => some (.behind stack (.member tree selector w))
  | .selecting .., _ => none
  | .typing (.group :: stack) words, .symbol ")" => some (.before (.cast words :: stack))
  | .typing stack words, .word w =>
    if w ∈ typeWords t then some (.typing stack (words ++ [w])) else none
  | .typing stack [w], token => stepBehind stack (.name w) token
  | .typing .., _ => none

/-- The tree of a whole expression that ends here. -/
def State.finish : State → Option Tree
  | .behind stack tree =>
    match collapse 0 stack tree with
    | ([], tree) => some tree
    | _ => none
  | _ => none

/-- Reads on to the end. -/
def readOn (t : Target) (state : State) (ts : List Token) : Option Tree :=
  (ts.foldlM (step t) state).bind State.finish

variable {t : Target} {stack : List Frame} {tree : Tree} {rest : List Token}

@[simp] theorem readOn_cons (state : State) (token : Token) (ts : List Token) :
    readOn t state (token :: ts) = (step t state token).bind (readOn t · ts) := by
  cases h : step t state token <;> simp [readOn, h]

/-- No operator of the given level, or a tighter one, closes what lies on top of the stack. -/
def Loose (level : Nat) (stack : List Frame) : Prop :=
  ∀ frame ∈ stack.head?, ∀ s ∈ frame.strength, s < max level 1

theorem collapse_of_loose {level : Nat} (h : Loose level stack) {p : Nat} (hp : level ≤ p)
    (hone : 1 ≤ p) (tree : Tree) : collapse p stack tree = (stack, tree) := by
  cases stack with
  | nil => rfl
  | cons frame stack =>
      have hstop : frame.strength.any (p ≤ ·) = false := by
        cases hs : frame.strength with
        | none => rfl
        | some s =>
            have := h frame (by simp) s (by simp [hs])
            simp only [Option.any_some, decide_eq_false_iff_not]
            omega
      simp [collapse, hstop]

/-- How tight a symbol behind an operand takes hold of it. -/
def grip (s : String) : Option Nat :=
  if s ∈ ["++", "--", ".", "->", "[", "("] then some 12
  else if s = "?" then some 1
  else if s ∈ [":", ",", ")", "]"] then some 0
  else binaryLevel? s

/-- What follows takes hold of an operand no tighter than `level`. -/
def Follows (level : Nat) (rest : List Token) : Prop :=
  ∀ token ∈ rest.head?, ∃ s g, token = .symbol s ∧ grip s = some g ∧ g ≤ level

theorem Follows.mono {level level' : Nat} (h : Follows level rest) (hle : level ≤ level') :
    Follows level' rest := by
  intro token htoken
  obtain ⟨s, g, hs, hg, hlevel⟩ := h token htoken
  exact ⟨s, g, hs, hg, hlevel.trans hle⟩

theorem binaryLevel?_le {op : String} {level : Nat} (h : binaryLevel? op = some level) :
    1 ≤ level ∧ level ≤ 10 := by
  have hall : ∀ p ∈ binaryLevels, 1 ≤ p.2 ∧ p.2 ≤ 10 := by decide
  exact hall (op, level) (mem_binaryLevels h)

theorem grip_of_binaryLevel? {op : String} {level : Nat} (h : binaryLevel? op = some level) :
    grip op = some level := by
  have hall : ∀ p ∈ binaryLevels, grip p.1 = binaryLevel? p.1 := by decide
  rw [hall (op, level) (mem_binaryLevels h), h]

theorem Follows.ten (h : Follows 11 rest) : Follows 10 rest := by
  intro token htoken
  obtain ⟨s, g, hs, hg, hlevel⟩ := h token htoken
  refine ⟨s, g, hs, hg, ?_⟩
  unfold grip at hg
  split_ifs at hg
  · cases hg
    omega
  · cases hg
    omega
  · cases hg
    omega
  · exact (binaryLevel?_le hg).2

/-- Closing the top of the stack before or after reading on comes to the same. -/
theorem readOn_fill {frame : Frame} {s : Nat} (hframe : frame.strength = some s)
    (hrest : Follows s rest) (hs : s ≤ 10) :
    readOn t (.behind (frame :: stack) tree) rest =
      readOn t (.behind stack (frame.fill tree)) rest := by
  have hcollapse : ∀ p ≤ s,
      collapse p (frame :: stack) tree = collapse p stack (frame.fill tree) := by
    intro p hp
    simp [collapse, hframe, hp]
  cases rest with
  | nil => simp [readOn, State.finish, hcollapse]
  | cons token rest =>
      obtain ⟨symbol, g, rfl, hg, hle⟩ := hrest token (by simp)
      have hnot : symbol ∉ ["++", "--", ".", "->", "[", "("] := by
        intro hmem
        rw [grip, if_pos hmem] at hg
        cases hg
        omega
      have hstep : stepSymbol (frame :: stack) tree symbol =
          stepSymbol stack (frame.fill tree) symbol := by
        simp only [List.mem_cons, not_or] at hnot
        unfold stepSymbol
        simp only [hnot, hcollapse 0 (Nat.zero_le s), or_self, if_false]
        by_cases hq : symbol = "?"
        · have hone : g = 1 := by
            subst hq
            exact (Option.some.inj hg).symm
          simp only [hq, if_true, hcollapse 1 (hone ▸ hle)]
        · cases hlevel : binaryLevel? symbol with
          | none => simp [hq]
          | some level =>
              have : g = level := by
                rw [grip_of_binaryLevel? hlevel] at hg
                exact (Option.some.inj hg).symm
              simp [hq, hcollapse level (this ▸ hle)]
      simp only [readOn_cons, step, stepBehind, hstep]

/-- Wherever nothing around it takes hold of a part of it, the reader takes the tokens for the
tree. A lone name in parentheses could be a type, so it is not read there. -/
def ReadsAs (t : Target) (level : Nat) (ts : List Token) (tree : Tree) : Prop :=
  ∀ stack rest, Loose level stack → Follows level rest →
    (stack.head? = some .group → tree.isType t → rest.head? ≠ some (.symbol ")")) →
    readOn t (.before stack) (ts ++ rest) = readOn t (.behind stack tree) rest

/-- The pieces between two brackets are collected one after the other. -/
theorem readOn_commaTokens {open_ : List Tree → Frame} {finish : List Tree → Tree}
    {closer : String} (hstrength : ∀ before, (open_ before).strength = none)
    (hgroup : ∀ before, open_ before ≠ .group)
    (hcomma : ∀ before tree, stepSymbol (open_ before :: stack) tree "," =
      some (.before (open_ (before ++ [tree]) :: stack)))
    (hcloser : ∀ before tree, stepSymbol (open_ before :: stack) tree closer =
      some (.behind stack (finish (before ++ [tree]))))
    (hgrip : grip closer = some 0) {pieces : List (List Token × Tree)} (hne : pieces ≠ [])
    (hread : ∀ p ∈ pieces, ReadsAs t 0 p.1 p.2) (before : List Tree) :
    readOn t (.before (open_ before :: stack))
        (commaTokens (pieces.map Prod.fst) ++ .symbol closer :: rest) =
      readOn t (.behind stack (finish (before ++ pieces.map Prod.snd))) rest := by
  induction pieces generalizing before with
  | nil => exact absurd rfl hne
  | cons piece pieces ih =>
      have hloose : Loose 0 (open_ before :: stack) := by
        simp [Loose, hstrength]
      have hpiece : ∀ rest, Follows 0 rest →
          readOn t (.before (open_ before :: stack)) (piece.1 ++ rest) =
            readOn t (.behind (open_ before :: stack) piece.2) rest := fun rest hrest =>
        hread piece (by simp) _ rest hloose hrest fun hhead =>
          absurd (Option.some.inj hhead) (hgroup before)
      cases pieces with
      | nil =>
          have hfollows : Follows 0 (.symbol closer :: rest) := by
            simp [Follows, hgrip]
          simpa [commaTokens, hcloser, step, stepBehind] using hpiece _ hfollows
      | cons next pieces =>
          have hfollows : ∀ tail, Follows 0 (.symbol "," :: tail) := by
            intro tail
            simp [Follows, grip]
          have hnext := ih (by simp) (fun p hp => hread p (List.mem_cons_of_mem _ hp))
            (before ++ [piece.2])
          have hsplit : commaTokens ((piece :: next :: pieces).map Prod.fst) =
              piece.1 ++ .symbol "," :: commaTokens ((next :: pieces).map Prod.fst) := by
            simp [commaTokens]
          rw [hsplit, List.append_assoc, List.cons_append, hpiece _ (hfollows _)]
          simpa [hcomma, step, stepBehind] using hnext

theorem Loose.of_strength {frame : Frame} (h : frame.strength = none) (level : Nat) :
    Loose level (frame :: stack) := by
  simp [Loose, h]

theorem Follows.of_grip {s : String} {g level : Nat} (h : grip s = some g) (hle : g ≤ level)
    (rest : List Token) : Follows level (.symbol s :: rest) := by
  simp [Follows, h, hle]

theorem ReadsAs.name {text : String} (h : .word text ∉ prefixOperators t) :
    ReadsAs t 13 [.word text] (.name text) := by
  intro stack rest _ hfollows hcast
  rw [List.singleton_append, readOn_cons]
  cases stack with
  | nil => simp [step, stepBefore, h]
  | cons frame stack =>
      cases frame with
      | group =>
          by_cases htype : text ∈ typeWords t
          · cases rest with
            | nil =>
                simp [step, stepBefore, h, htype, readOn, State.finish, collapse, Frame.strength]
            | cons token rest =>
                obtain ⟨s, -, rfl, -, -⟩ := hfollows token (by simp)
                have hs : s ≠ ")" := by
                  rintro rfl
                  exact hcast rfl htype rfl
                simp [step, stepBefore, h, htype, hs]
          · simp [step, stepBefore, h, htype]
      | _ => simp [step, stepBefore, h]

theorem ReadsAs.group {ts : List Token} (h : ReadsAs t 0 ts tree) (ht : ¬tree.isType t) :
    ReadsAs t 13 (.symbol "(" :: (ts ++ [Token.symbol ")"])) tree := by
  intro stack rest _ _ _
  have hopen : stepBefore t stack (.symbol "(") = some (.before (.group :: stack)) := by
    cases t <;> simp [stepBefore, prefixOperators, prefixOperators.signs]
  have hread := h (.group :: stack) (.symbol ")" :: rest) (.of_strength rfl 0)
    (.of_grip (by decide) (Nat.le_refl 0) rest) fun _ htype => absurd htype ht
  simp only [List.cons_append, List.append_assoc, List.nil_append, readOn_cons, step, hopen,
    Option.bind_some, hread]
  simp [stepBehind, stepSymbol, collapse, Frame.strength]

theorem ReadsAs.items {pieces : List (List Token × Tree)}
    (h : ∀ p ∈ pieces, ReadsAs t 0 p.1 p.2) :
    ReadsAs t 13 (.symbol "[" :: (commaTokens (pieces.map Prod.fst) ++ [Token.symbol "]"]))
      (.items (pieces.map Prod.snd)) := by
  intro stack rest _ _ _
  have hopen : stepBefore t stack (.symbol "[") = some (.before (.items [] :: stack)) := by
    cases t <;> simp [stepBefore, prefixOperators, prefixOperators.signs]
  simp only [List.cons_append, List.append_assoc, List.nil_append, readOn_cons, step, hopen,
    Option.bind_some]
  cases pieces with
  | nil =>
      have hclose : stepBefore t (.items [] :: stack) (.symbol "]") =
          some (.behind stack (.items [])) := by
        cases t <;> simp [stepBefore, prefixOperators, prefixOperators.signs]
      simp [commaTokens, step, hclose]
  | cons piece pieces =>
      refine readOn_commaTokens (fun _ => rfl) (by simp) ?_ ?_ (by decide) (by simp) h []
      · intro before tree
        simp [stepSymbol, collapse, Frame.strength]
      · intro before tree
        simp [stepSymbol, collapse, Frame.strength]

theorem ReadsAs.member {ts : List Token} {selector : String} (h : ReadsAs t 12 ts tree)
    (hs : selector = "." ∨ selector = "->") (name : String) :
    ReadsAs t 12 (ts ++ [Token.symbol selector, Token.word name]) (.member tree selector name) := by
  intro stack rest hloose _ _
  have hgrip : grip selector = some 12 := by
    rcases hs with rfl | rfl <;> decide
  have hread := h stack (.symbol selector :: .word name :: rest) hloose
    (.of_grip hgrip (Nat.le_refl 12) _) fun _ _ => by rcases hs with rfl | rfl <;> simp
  rw [List.append_assoc]
  refine hread.trans ?_
  rcases hs with rfl | rfl <;> simp [step, stepBehind, stepSymbol]

theorem ReadsAs.element {as ps : List Token} {array position : Tree} (ha : ReadsAs t 12 as array)
    (hp : ReadsAs t 0 ps position) :
    ReadsAs t 12 (as ++ Token.symbol "[" :: (ps ++ [Token.symbol "]"]))
      (.element array position) := by
  intro stack rest hloose _ _
  have harray := ha stack (.symbol "[" :: (ps ++ .symbol "]" :: rest)) hloose
    (.of_grip (by decide) (Nat.le_refl 12) _) fun _ _ => by simp
  have hposition := hp (.position array :: stack) (.symbol "]" :: rest) (.of_strength rfl 0)
    (.of_grip (by decide) (Nat.le_refl 0) rest) fun hhead => by simp at hhead
  simp only [List.cons_append, List.append_assoc, List.nil_append]
  rw [harray, readOn_cons]
  simp [step, stepBehind, stepSymbol, hposition, collapse, Frame.strength]

theorem ReadsAs.call {fs : List Token} {callee : Tree} {pieces : List (List Token × Tree)}
    (hf : ReadsAs t 12 fs callee) (h : ∀ p ∈ pieces, ReadsAs t 0 p.1 p.2) :
    ReadsAs t 12
      (fs ++ Token.symbol "(" :: (commaTokens (pieces.map Prod.fst) ++ [Token.symbol ")"]))
      (.call callee (pieces.map Prod.snd)) := by
  intro stack rest hloose _ _
  have hcallee := hf stack
    (.symbol "(" :: (commaTokens (pieces.map Prod.fst) ++ .symbol ")" :: rest)) hloose
    (.of_grip (by decide) (Nat.le_refl 12) _) fun _ _ => by simp
  simp only [List.cons_append, List.append_assoc, List.nil_append]
  rw [hcallee, readOn_cons]
  simp only [step, stepBehind, show stepSymbol stack callee "(" =
    some (.before (.args callee [] :: stack)) from rfl, Option.bind_some]
  cases pieces with
  | nil =>
      have hclose : stepBefore t (.args callee [] :: stack) (.symbol ")") =
          some (.behind stack (.call callee [])) := by
        cases t <;> simp [stepBefore, prefixOperators, prefixOperators.signs]
      simp [commaTokens, step, hclose]
  | cons piece pieces =>
      refine readOn_commaTokens (fun _ => rfl) (by simp) ?_ ?_ (by decide) (by simp) h []
      · intro before tree
        simp [stepSymbol, collapse, Frame.strength]
      · intro before tree
        simp [stepSymbol, collapse, Frame.strength]

theorem ReadsAs.postfixed {ts : List Token} {op : String} (h : ReadsAs t 12 ts tree)
    (hop : op = "++" ∨ op = "--") :
    ReadsAs t 12 (ts ++ [Token.symbol op]) (.postfixed op tree) := by
  intro stack rest hloose _ _
  have hgrip : grip op = some 12 := by
    rcases hop with rfl | rfl <;> decide
  have hread := h stack (.symbol op :: rest) hloose (.of_grip hgrip (Nat.le_refl 12) _)
    fun _ _ => by rcases hop with rfl | rfl <;> simp
  rw [List.append_assoc]
  refine hread.trans ?_
  rcases hop with rfl | rfl <;> simp [step, stepBehind, stepSymbol]

/-- Behind the operand of a prefix operator or a cast, what follows only takes hold of the whole. -/
theorem readOn_prefix {frame : Frame} {ts : List Token} (hframe : frame.strength = some 10)
    (hgroup : frame ≠ .group) (h : ReadsAs t 11 ts tree) (hfollows : Follows 11 rest) :
    readOn t (.before (frame :: stack)) (ts ++ rest) =
      readOn t (.behind stack (frame.fill tree)) rest := by
  have hloose : Loose 11 (frame :: stack) := by
    simp [Loose, hframe]
  rw [h (frame :: stack) rest hloose hfollows
    fun hhead => absurd (Option.some.inj hhead) hgroup]
  exact readOn_fill hframe hfollows.ten (Nat.le_refl 10)

theorem ReadsAs.prefixed {ts : List Token} {op : Token} (hop : op ∈ prefixOperators t)
    (h : ReadsAs t 11 ts tree) : ReadsAs t 11 (op :: ts) (.prefixed op.text tree) := by
  intro stack rest _ hfollows _
  have hstep : stepBefore t stack op = some (.before (.prefixed op.text :: stack)) := by
    simp [stepBefore, hop]
  rw [List.cons_append, readOn_cons, step, hstep, Option.bind_some]
  exact readOn_prefix rfl (by simp) h hfollows

/-- The words of a type in parentheses, after the first of them. -/
theorem readOn_typing (type words : List String) (htype : ∀ w ∈ type, w ∈ typeWords t) :
    readOn t (.typing (.group :: stack) words) (type.map Token.word ++ .symbol ")" :: rest) =
      readOn t (.before (.cast (words ++ type) :: stack)) rest := by
  induction type generalizing words with
  | nil => simp [step]
  | cons w type ih =>
      obtain ⟨hw, htype⟩ := List.forall_mem_cons.mp htype
      have hstep : step t (.typing (.group :: stack) words) (.word w) =
          some (.typing (.group :: stack) (words ++ [w])) := by
        cases words <;> simp [step, hw]
      simp only [List.map_cons, List.cons_append, readOn_cons, hstep, Option.bind_some]
      rw [ih (words ++ [w]) htype]
      simp

theorem ReadsAs.cast {ts : List Token} {type : List String} (hne : type ≠ [])
    (htype : ∀ w ∈ type, w ∈ typeWords t) (h : ReadsAs t 11 ts tree) :
    ReadsAs t 11 (.symbol "(" :: (type.map Token.word ++ .symbol ")" :: ts)) (.cast type tree) := by
  intro stack rest _ hfollows _
  obtain ⟨w, words, rfl⟩ := List.exists_cons_of_ne_nil hne
  obtain ⟨hw, hwords⟩ := List.forall_mem_cons.mp htype
  have hopen : stepBefore t stack (.symbol "(") = some (.before (.group :: stack)) := by
    cases t <;> simp [stepBefore, prefixOperators, prefixOperators.signs]
  have hword : .word w ∉ prefixOperators t := by
    rintro hmem
    revert hw hmem
    cases t with
    | actionScript => simp [typeWords]
    | cFamily d =>
        cases d <;>
          simp only [typeWords, typeWords.plain, prefixOperators, prefixOperators.signs] <;>
          simp <;> rintro h rfl <;> simp at h
  have hfirst : stepBefore t (.group :: stack) (.word w) =
      some (.typing (.group :: stack) [w]) := by
    simp [stepBefore, hword, hw]
  simp only [List.map_cons, List.cons_append, List.append_assoc, readOn_cons, step, hopen, hfirst,
    Option.bind_some]
  rw [readOn_typing words [w] hwords]
  exact readOn_prefix rfl (by simp) h hfollows

theorem ReadsAs.binary {ls rs : List Token} {left right : Tree} {op : String} {level : Nat}
    (hop : binaryLevel? op = some level) (hl : ReadsAs t level ls left)
    (hr : ReadsAs t (level + 1) rs right) :
    ReadsAs t level (ls ++ .symbol op :: rs) (.binary op left right) := by
  intro stack rest hloose hfollows _
  obtain ⟨hone, hten⟩ := binaryLevel?_le hop
  have hgrip := grip_of_binaryLevel? hop
  have hclose : op ≠ ")" := by
    rintro rfl
    have hnone : binaryLevel? ")" = none := by decide
    simp [hnone] at hop
  have hleft := hl stack (.symbol op :: (rs ++ rest)) hloose (.of_grip hgrip (Nat.le_refl _) _)
    fun _ _ => by simpa using hclose
  have hstep : stepSymbol stack left op =
      some (.before (.operator left op level :: stack)) := by
    have hbinary : ∀ p ∈ binaryLevels, p.1 ∉ ["++", "--", ".", "->", "[", "(", "?", ":", ",",
      ")", "]"] := by decide
    have hmem := hbinary _ (mem_binaryLevels hop)
    simp only [List.mem_cons, not_or] at hmem
    simp [stepSymbol, hmem, hop, collapse_of_loose hloose (Nat.le_refl _) hone]
  have hright := hr (.operator left op level :: stack) rest
    (by simp [Loose, Frame.strength]) (hfollows.mono (Nat.le_succ _))
    fun hhead => by simp at hhead
  rw [List.append_assoc, List.cons_append, hleft, readOn_cons, step, stepBehind, hstep,
    Option.bind_some, hright]
  exact readOn_fill rfl hfollows hten

theorem ReadsAs.select {cs as bs : List Token} {cond onTrue onFalse : Tree}
    (hc : ReadsAs t 1 cs cond) (ha : ReadsAs t 0 as onTrue) (hb : ReadsAs t 0 bs onFalse) :
    ReadsAs t 0 (cs ++ .symbol "?" :: (as ++ .symbol ":" :: bs))
      (.select cond onTrue onFalse) := by
  intro stack rest hloose hfollows _
  have hloose' : Loose 1 stack := by
    simpa [Loose] using hloose
  have hcond := hc stack (.symbol "?" :: (as ++ .symbol ":" :: (bs ++ rest))) hloose'
    (.of_grip (by decide) (Nat.le_refl 1) _) fun _ _ => by simp
  have htrue := ha (.onTrue cond :: stack) (.symbol ":" :: (bs ++ rest)) (.of_strength rfl 0)
    (.of_grip (by decide) (Nat.le_refl 0) _) fun hhead => by simp at hhead
  have hfalse := hb (.onFalse cond onTrue :: stack) rest (by simp [Loose, Frame.strength])
    hfollows fun hhead => by simp at hhead
  simp only [List.append_assoc, List.cons_append]
  rw [hcond, readOn_cons, step, stepBehind,
    show stepSymbol stack cond "?" = some (.before (.onTrue cond :: stack)) by
      simp [stepSymbol, collapse_of_loose hloose' (Nat.le_refl 1) (Nat.le_refl 1)],
    Option.bind_some, htrue, readOn_cons, step, stepBehind,
    show stepSymbol (.onTrue cond :: stack) onTrue ":" =
        some (.before (.onFalse cond onTrue :: stack)) by
      simp [stepSymbol, collapse, Frame.strength],
    Option.bind_some, hfalse]
  exact readOn_fill rfl hfollows (Nat.zero_le 10)

theorem ReadsAs.looser {level : Nat} {ts : List Token} (h : ReadsAs t (level + 1) ts tree) :
    ReadsAs t level ts tree := by
  intro stack rest hloose hfollows hcast
  refine h stack rest ?_ (hfollows.mono (Nat.le_succ _)) hcast
  intro frame hframe s hs
  have := hloose frame hframe s hs
  omega

theorem Parses.readsAs {level : Nat} {ts : List Token} (h : Parses t level ts tree) :
    ReadsAs t level ts tree := by
  induction h with
  | name h => exact .name h
  | number text => exact fun stack rest _ _ _ => by cases t <;> rfl
  | text contents => exact fun stack rest _ _ _ => by cases t <;> rfl
  | group _ ht ih => exact ih.group ht
  | items _ ih => exact .items ih
  | member _ hs name ih => exact ih.member hs name
  | element _ _ iha ihp => exact iha.element ihp
  | call _ _ ihf ih => exact ihf.call ih
  | postfixed _ hop ih => exact ih.postfixed hop
  | prefixed hop _ ih => exact ih.prefixed hop
  | cast hne htype _ ih => exact ih.cast hne htype
  | binary hop _ _ ihl ihr => exact .binary hop ihl ihr
  | select _ _ _ ihc iha ihb => exact ihc.select iha ihb
  | looser _ ih => exact ih.looser

/-- Tokens are an expression in one way at most. -/
theorem Parses.unique {level level' : Nat} {ts : List Token} {tree tree' : Tree}
    (h : Parses t level ts tree) (h' : Parses t level' ts tree') : tree = tree' := by
  have hfinish : ∀ {level : Nat} {tree : Tree}, Parses t level ts tree →
      readOn t (.before []) ts = some tree := by
    intro level tree h
    have hread := h.readsAs [] [] (by simp [Loose]) (by simp [Follows]) (by simp)
    simpa [readOn, State.finish, collapse] using hread
  exact Option.some.inj ((hfinish h).symm.trans (hfinish h'))

end Emitter.Reading
