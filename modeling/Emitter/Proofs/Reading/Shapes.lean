import Emitter.Proofs.Reading.Tidy

/-!
# The grammar of statements

Statements are read by the grammar of C, where an `else` belongs to the nearest `if` in front of it
that has none yet. Only how statements are nested matters here: what they hold besides statements,
such as a condition or an assignment, is kept as the list of its tokens.
-/

namespace Emitter.Reading

/-- How statements are nested. A `simple` statement is everything up to its semicolon. -/
inductive Shape
  | block (stmts : List Shape)
  | simple (tokens : List Token)
  | branch (cond : List Token) (onTrue : Shape) (onFalse : Option Shape)
  | whileLoop (cond : List Token) (body : Shape)
  | doLoop (body : Shape) (cond : List Token)
  | forLoop (start cond advance : List Token) (body : Shape)

/-- The tokens in front of the first stop outside all brackets, and those behind it. -/
def cutAt (stop : String) : Nat → List Token → Option (List Token × List Token)
  | _, [] => none
  | depth, t :: ts =>
    if depth = 0 ∧ t = .symbol stop then some ([], ts)
    else do
      let (inside, rest) ← cutAt stop (← t.depthAfter depth) ts
      return (t :: inside, rest)

def skip (t : Token) : List Token → Option (List Token)
  | [] => none
  | u :: ts => if u = t then some ts else none

/-- The tokens between parentheses, and those behind them. -/
def cutParentheses (ts : List Token) : Option (List Token × List Token) := do
  cutAt ")" 0 (← skip (.symbol "(") ts)

mutual

/-- The statement that the tokens start with, and the tokens behind it. Only nesting is read:
whatever stands up to a semicolon, a declaration too, counts as a simple statement. -/
def readStatement : Nat → List Token → Option (Shape × List Token)
  | 0, _ => none
  | _, [] => none
  | fuel + 1, t :: ts =>
    if t = .symbol "\x7b" then do
      let (stmts, rest) ← readBlock fuel ts
      return (.block stmts, rest)
    else if t = .word "if" then do
      let (cond, rest) ← cutParentheses ts
      let (onTrue, rest) ← readStatement fuel rest
      if rest.head? = some (.word "else") then do
        let (onFalse, rest) ← readStatement fuel rest.tail
        return (.branch cond onTrue (some onFalse), rest)
      else return (.branch cond onTrue none, rest)
    else if t = .word "while" then do
      let (cond, rest) ← cutParentheses ts
      let (body, rest) ← readStatement fuel rest
      return (.whileLoop cond body, rest)
    else if t = .word "do" then do
      let (body, rest) ← readStatement fuel ts
      let (cond, rest) ← cutParentheses (← skip (.word "while") rest)
      return (.doLoop body cond, ← skip (.symbol ";") rest)
    else if t = .word "for" then do
      let (start, rest) ← cutAt ";" 0 (← skip (.symbol "(") ts)
      let (cond, rest) ← cutAt ";" 0 rest
      let (advance, rest) ← cutAt ")" 0 rest
      let (body, rest) ← readStatement fuel rest
      return (.forLoop start cond advance body, rest)
    else if t = .word "else" ∨ t = .symbol "\x7d" then none
    else do
      let (tokens, rest) ← cutAt ";" 0 (t :: ts)
      return (.simple tokens, rest)

/-- The statements up to a closing brace, and the tokens behind it. -/
def readBlock : Nat → List Token → Option (List Shape × List Token)
  | 0, _ => none
  | fuel + 1, ts =>
    if ts.head? = some (.symbol "\x7d") then some ([], ts.tail)
    else do
      let (s, rest) ← readStatement fuel ts
      let (stmts, rest) ← readBlock fuel rest
      return (s :: stmts, rest)

end

/-- The one statement that a text is. -/
def readShape (text : String) : Option Shape := do
  let ts ← scan text
  let (shape, rest) ← readStatement (ts.length + 1) ts
  if rest.isEmpty then some shape else none

namespace Shape

mutual

/-- The tokens of a statement, one after the other as they are nested. -/
def tokens : Shape → List Token
  | block stmts => .symbol "\x7b" :: (tokensOf stmts ++ [.symbol "\x7d"])
  | simple ts => ts ++ [.symbol ";"]
  | branch cond onTrue none =>
    .word "if" :: .symbol "(" :: (cond ++ .symbol ")" :: tokens onTrue)
  | branch cond onTrue (some onFalse) =>
    .word "if" :: .symbol "(" ::
      (cond ++ .symbol ")" :: (tokens onTrue ++ .word "else" :: tokens onFalse))
  | whileLoop cond body => .word "while" :: .symbol "(" :: (cond ++ .symbol ")" :: tokens body)
  | doLoop body cond =>
    .word "do" :: (tokens body ++
      .word "while" :: .symbol "(" :: (cond ++ [.symbol ")", .symbol ";"]))
  | forLoop start cond advance body =>
    .word "for" :: .symbol "(" ::
      (start ++ .symbol ";" :: (cond ++ .symbol ";" :: (advance ++ .symbol ")" :: tokens body)))

def tokensOf : List Shape → List Token
  | [] => []
  | s :: rest => tokens s ++ tokensOf rest

end

/-- The statement ends in a branch without `else`, which takes an `else` that follows. -/
def endsOpen : Shape → Bool
  | branch _ _ none => true
  | branch _ _ (some onFalse) => onFalse.endsOpen
  | whileLoop _ body | forLoop _ _ _ body => body.endsOpen
  | _ => false

mutual

/-- No `else` in the statement follows a statement that takes it. -/
def attached : Shape → Bool
  | block stmts => attachedAll stmts
  | simple _ => true
  | branch _ onTrue none => attached onTrue
  | branch _ onTrue (some onFalse) => !onTrue.endsOpen && attached onTrue && attached onFalse
  | whileLoop _ body | doLoop body _ | forLoop _ _ _ body => attached body

def attachedAll : List Shape → Bool
  | [] => true
  | s :: rest => attached s && attachedAll rest

end

/-- The tokens that a simple statement cannot start with. -/
def openers : List Token :=
  [.symbol "\x7b", .word "if", .word "while", .word "do", .word "for", .word "else",
    .symbol "\x7d"]

mutual

/-- What the statement holds besides statements closes its brackets, and does not start like a
statement of another kind. -/
def Sane : Shape → Prop
  | block stmts => SaneAll stmts
  | simple ts => Balanced ts ∧ ∀ t ∈ ts.head?, t ∉ openers
  | branch cond onTrue none => Balanced cond ∧ Sane onTrue
  | branch cond onTrue (some onFalse) => Balanced cond ∧ Sane onTrue ∧ Sane onFalse
  | whileLoop cond body | doLoop body cond => Balanced cond ∧ Sane body
  | forLoop start cond advance body =>
    Balanced start ∧ Balanced cond ∧ Balanced advance ∧ Sane body

def SaneAll : List Shape → Prop
  | [] => True
  | s :: rest => Sane s ∧ SaneAll rest

end

end Shape

theorem cutAt_of_foldlM {ts : List Token} {depth : Nat} {stop : String}
    (h : ts.foldlM Token.depthAfter depth = some 0) (hstop : stop ∈ [")", ";"])
    (rest : List Token) : cutAt stop depth (ts ++ .symbol stop :: rest) = some (ts, rest) := by
  induction ts generalizing depth with
  | nil =>
      obtain rfl : depth = 0 := by simpa using h
      simp [cutAt]
  | cons t ts ih =>
      rw [List.foldlM_cons] at h
      obtain ⟨next, hnext, h⟩ := Option.bind_eq_some_iff.mp h
      have hgo : ¬(depth = 0 ∧ t = .symbol stop) := by
        rintro ⟨rfl, rfl⟩
        have hnone : ∀ s ∈ [")", ";"], Token.depthAfter 0 (.symbol s) = none := by decide
        simp [hnone stop hstop] at hnext
      simp [cutAt, hgo, hnext, ih h]

theorem Balanced.cutAt {ts : List Token} (h : Balanced ts) {stop : String}
    (hstop : stop ∈ [")", ";"]) (rest : List Token) :
    cutAt stop 0 (ts ++ .symbol stop :: rest) = some (ts, rest) :=
  cutAt_of_foldlM (h 0) hstop rest

theorem Balanced.cutParentheses {ts : List Token} (h : Balanced ts) (rest : List Token) :
    cutParentheses (.symbol "(" :: (ts ++ .symbol ")" :: rest)) = some (ts, rest) := by
  simp [Reading.cutParentheses, skip, h.cutAt]

namespace Shape

theorem exists_tokens_eq_cons {s : Shape} (h : s.Sane) :
    ∃ t ts, s.tokens = t :: ts ∧ t ≠ .word "else" ∧ t ≠ .symbol "\x7d" := by
  cases s with
  | simple ts =>
      cases ts with
      | nil => exact ⟨_, _, rfl, by decide, by decide⟩
      | cons t ts =>
          obtain ⟨-, hhead⟩ : Balanced (t :: ts) ∧ ∀ u ∈ (t :: ts).head?, u ∉ openers := by
            simpa only [Sane] using h
          have ht := hhead t rfl
          refine ⟨t, _, rfl, ?_, ?_⟩ <;> rintro rfl <;> exact ht (by decide)
  | branch cond onTrue onFalse => cases onFalse <;> exact ⟨_, _, rfl, by decide, by decide⟩
  | _ => exact ⟨_, _, rfl, by decide, by decide⟩

theorem readStatement_simple {ts : List Token} (h : (simple ts).Sane) (fuel : Nat)
    (rest : List Token) :
    readStatement (fuel + 1) ((simple ts).tokens ++ rest) = some (simple ts, rest) := by
  obtain ⟨hbalanced, hhead⟩ : Balanced ts ∧ ∀ t ∈ ts.head?, t ∉ openers := by
    simpa only [Sane] using h
  have hcut : cutAt ";" 0 (ts ++ .symbol ";" :: rest) = some (ts, rest) :=
    hbalanced.cutAt (by decide) rest
  have htokens : (simple ts).tokens ++ rest = ts ++ .symbol ";" :: rest := by
    simp [tokens]
  have hread : ∀ t us, t ∉ openers → ts ++ .symbol ";" :: rest = t :: us →
      readStatement (fuel + 1) (t :: us) = some (simple ts, rest) := by
    intro t us ht hsplit
    simp only [openers, List.mem_cons, List.not_mem_nil, or_false, not_or] at ht
    simp [readStatement, ht, ← hsplit, hcut]
  rw [htokens]
  cases ts with
  | nil => exact hread _ _ (by decide) rfl
  | cons t ts => exact hread _ _ (hhead t rfl) rfl

theorem read_all (fuel : Nat) :
    (∀ (s : Shape) (rest : List Token), s.Sane → s.attached = true →
      (s.endsOpen = true → rest.head? ≠ some (.word "else")) → s.tokens.length < fuel →
        readStatement fuel (s.tokens ++ rest) = some (s, rest)) ∧
    (∀ (stmts : List Shape) (rest : List Token), SaneAll stmts → attachedAll stmts = true →
      (tokensOf stmts).length + 1 < fuel →
        readBlock fuel (tokensOf stmts ++ .symbol "\x7d" :: rest) = some (stmts, rest)) := by
  induction fuel with
  | zero => exact ⟨fun _ _ _ _ _ h => absurd h (by omega), fun _ _ _ _ h => absurd h (by omega)⟩
  | succ fuel ih =>
      obtain ⟨ihs, ihb⟩ := ih
      refine ⟨fun s rest hsane hattached hopen hfuel => ?_,
        fun stmts rest hsane hattached hfuel => ?_⟩
      · cases s with
        | simple ts => exact readStatement_simple hsane fuel rest
        | block stmts =>
            simp only [Sane] at hsane
            simp only [attached] at hattached
            simp only [tokens, List.length_cons, List.length_append, List.length_nil] at hfuel
            have hblock := ihb stmts rest hsane hattached (by omega)
            simp [tokens, readStatement, hblock]
        | branch cond onTrue onFalse =>
            cases onFalse with
            | none =>
                simp only [Sane] at hsane
                simp only [attached] at hattached
                simp only [tokens, List.length_cons, List.length_append] at hfuel
                have hrest : rest.head? ≠ some (.word "else") := hopen rfl
                have htrue := ihs onTrue rest hsane.2 hattached (fun _ => hrest) (by omega)
                simp [tokens, readStatement, hsane.1.cutParentheses, htrue, hrest]
            | some onFalse =>
                simp only [Sane] at hsane
                simp only [attached, Bool.and_eq_true, Bool.not_eq_true'] at hattached
                simp only [tokens, List.length_cons, List.length_append] at hfuel
                have htrue := ihs onTrue (.word "else" :: (onFalse.tokens ++ rest)) hsane.2.1
                  hattached.1.2 (by simp [hattached.1.1]) (by omega)
                have hfalse := ihs onFalse rest hsane.2.2 hattached.2 hopen (by omega)
                simp [tokens, readStatement, hsane.1.cutParentheses, htrue, hfalse]
        | whileLoop cond body =>
            simp only [Sane] at hsane
            simp only [attached] at hattached
            simp only [tokens, List.length_cons, List.length_append] at hfuel
            have hbody := ihs body rest hsane.2 hattached hopen (by omega)
            simp [tokens, readStatement, hsane.1.cutParentheses, hbody]
        | doLoop body cond =>
            simp only [Sane] at hsane
            simp only [attached] at hattached
            simp only [tokens, List.length_cons, List.length_append] at hfuel
            have hbody := ihs body (.word "while" :: .symbol "(" ::
              (cond ++ .symbol ")" :: .symbol ";" :: rest)) hsane.2 hattached (by simp) (by omega)
            simp [tokens, readStatement, hsane.1.cutParentheses, hbody, skip]
        | forLoop start cond advance body =>
            simp only [Sane] at hsane
            simp only [attached] at hattached
            simp only [tokens, List.length_cons, List.length_append] at hfuel
            obtain ⟨hstart, hcond, hadvance, hsane⟩ := hsane
            have hbody := ihs body rest hsane hattached hopen (by omega)
            simp [tokens, readStatement, skip, hstart.cutAt, hcond.cutAt, hadvance.cutAt, hbody]
      · cases stmts with
        | nil => simp [tokensOf, readBlock]
        | cons s stmts =>
            simp only [SaneAll] at hsane
            simp only [attachedAll, Bool.and_eq_true] at hattached
            simp only [tokensOf, List.length_append] at hfuel
            obtain ⟨t, ts, htokens, -, hclose⟩ := exists_tokens_eq_cons hsane.1
            have hlength : 0 < s.tokens.length := by simp [htokens]
            have hnext : (tokensOf stmts ++ .symbol "\x7d" :: rest).head? ≠
                some (.word "else") := by
              cases stmts with
              | nil => simp [tokensOf]
              | cons s' stmts =>
                  simp only [SaneAll] at hsane
                  obtain ⟨t', ts', htokens', helse, -⟩ := exists_tokens_eq_cons hsane.2.1
                  simp [tokensOf, htokens', helse]
            have hs := ihs s (tokensOf stmts ++ .symbol "\x7d" :: rest) hsane.1 hattached.1
              (fun _ => hnext) (by omega)
            have hstmts := ihb stmts rest hsane.2 hattached.2 (by omega)
            have hhead : (s.tokens ++ (tokensOf stmts ++ .symbol "\x7d" :: rest)).head? ≠
                some (.symbol "\x7d") := by simp [htokens, hclose]
            simp only [tokensOf, List.append_assoc]
            rw [readBlock, if_neg hhead]
            simp [hs, hstmts]

/-- An attached statement is read back from its tokens, in front of anything but an `else` that it
would take. -/
theorem readStatement_tokens {s : Shape} (hsane : s.Sane) (h : s.attached = true) {fuel : Nat}
    (hfuel : s.tokens.length < fuel) : readStatement fuel s.tokens = some (s, []) := by
  simpa using (read_all fuel).1 s [] hsane h (by simp) hfuel

/-! For the converse the reader is followed. Whatever it reads is attached, and no open end stands
in front of an `else`. -/

theorem attached_all (fuel : Nat) :
    (∀ ts s rest, readStatement fuel ts = some (s, rest) →
      s.attached = true ∧ (s.endsOpen = true → rest.head? ≠ some (.word "else"))) ∧
    (∀ ts stmts rest, readBlock fuel ts = some (stmts, rest) → attachedAll stmts = true) := by
  induction fuel with
  | zero => exact ⟨by simp [readStatement], by simp [readBlock]⟩
  | succ fuel ih =>
      obtain ⟨ihs, ihb⟩ := ih
      refine ⟨fun ts s rest h => ?_, fun ts stmts rest h => ?_⟩
      · cases ts with
        | nil => simp [readStatement] at h
        | cons t ts =>
            rw [readStatement] at h
            split_ifs at h
            · obtain ⟨⟨stmts, rest'⟩, hblock, h⟩ := Option.bind_eq_some_iff.mp h
              obtain ⟨rfl, rfl⟩ := Prod.mk.inj (Option.some.inj h)
              exact ⟨ihb _ _ _ hblock, by simp [endsOpen]⟩
            · obtain ⟨⟨cond, rest₁⟩, -, h⟩ := Option.bind_eq_some_iff.mp h
              obtain ⟨⟨onTrue, rest₂⟩, htrue, h⟩ := Option.bind_eq_some_iff.mp h
              obtain ⟨hattached, hopen⟩ := ihs _ _ _ htrue
              dsimp only at h
              split_ifs at h with helse
              · obtain ⟨⟨onFalse, rest₃⟩, hfalse, h⟩ := Option.bind_eq_some_iff.mp h
                obtain ⟨rfl, rfl⟩ := Prod.mk.inj (Option.some.inj h)
                obtain ⟨hattached', hopen'⟩ := ihs _ _ _ hfalse
                have hclosed : onTrue.endsOpen = false := by
                  by_contra hne
                  exact hopen (by simpa using hne) helse
                exact ⟨by simp [attached, hclosed, hattached, hattached'], hopen'⟩
              · obtain ⟨rfl, rfl⟩ := Prod.mk.inj (Option.some.inj h)
                exact ⟨hattached, fun _ => helse⟩
            · obtain ⟨⟨cond, rest₁⟩, -, h⟩ := Option.bind_eq_some_iff.mp h
              obtain ⟨⟨body, rest₂⟩, hbody, h⟩ := Option.bind_eq_some_iff.mp h
              obtain ⟨rfl, rfl⟩ := Prod.mk.inj (Option.some.inj h)
              simpa [attached, endsOpen] using ihs _ _ _ hbody
            · obtain ⟨⟨body, rest₁⟩, hbody, h⟩ := Option.bind_eq_some_iff.mp h
              obtain ⟨rest₂, -, h⟩ := Option.bind_eq_some_iff.mp h
              obtain ⟨⟨cond, rest₃⟩, -, h⟩ := Option.bind_eq_some_iff.mp h
              obtain ⟨rest₄, -, h⟩ := Option.bind_eq_some_iff.mp h
              obtain ⟨rfl, rfl⟩ := Prod.mk.inj (Option.some.inj h)
              exact ⟨(ihs _ _ _ hbody).1, by simp [endsOpen]⟩
            · obtain ⟨rest₁, -, h⟩ := Option.bind_eq_some_iff.mp h
              obtain ⟨⟨start, rest₂⟩, -, h⟩ := Option.bind_eq_some_iff.mp h
              obtain ⟨⟨cond, rest₃⟩, -, h⟩ := Option.bind_eq_some_iff.mp h
              obtain ⟨⟨advance, rest₄⟩, -, h⟩ := Option.bind_eq_some_iff.mp h
              obtain ⟨⟨body, rest₅⟩, hbody, h⟩ := Option.bind_eq_some_iff.mp h
              obtain ⟨rfl, rfl⟩ := Prod.mk.inj (Option.some.inj h)
              simpa [attached, endsOpen] using ihs _ _ _ hbody
            · obtain ⟨⟨tokens, rest'⟩, -, h⟩ := Option.bind_eq_some_iff.mp h
              obtain ⟨rfl, rfl⟩ := Prod.mk.inj (Option.some.inj h)
              exact ⟨rfl, by simp [endsOpen]⟩
      · rw [readBlock] at h
        split_ifs at h
        · obtain ⟨rfl, rfl⟩ := Prod.mk.inj (Option.some.inj h)
          rfl
        · obtain ⟨⟨s, rest₁⟩, hs, h⟩ := Option.bind_eq_some_iff.mp h
          obtain ⟨⟨more, rest₂⟩, hmore, h⟩ := Option.bind_eq_some_iff.mp h
          obtain ⟨rfl, rfl⟩ := Prod.mk.inj (Option.some.inj h)
          simp [attachedAll, (ihs _ _ _ hs).1, ihb _ _ _ hmore]

/-- A text of the tokens of a statement is read back as that statement exactly if every `else` in
it is attached. -/
theorem readShape_eq_some_iff {s : Shape} {text : String} (hscan : scan text = some s.tokens)
    (hsane : s.Sane) : readShape text = some s ↔ s.attached = true := by
  constructor
  · intro h
    obtain ⟨ts, hts, h⟩ := Option.bind_eq_some_iff.mp h
    obtain ⟨⟨s', rest⟩, hread, h⟩ := Option.bind_eq_some_iff.mp h
    dsimp only at h
    split_ifs at h
    obtain rfl := Option.some.inj h
    exact ((attached_all _).1 _ _ _ hread).1
  · intro h
    simp [readShape, hscan, readStatement_tokens hsane h]

/-- Whatever is read is read with more fuel as well. -/
theorem read_more (fuel : Nat) :
    (∀ ts read, readStatement fuel ts = some read → readStatement (fuel + 1) ts = some read) ∧
    (∀ ts read, readBlock fuel ts = some read → readBlock (fuel + 1) ts = some read) := by
  induction fuel with
  | zero => exact ⟨by simp [readStatement], by simp [readBlock]⟩
  | succ fuel ih =>
      obtain ⟨ihs, ihb⟩ := ih
      refine ⟨fun ts read h => ?_, fun ts read h => ?_⟩
      · cases ts with
        | nil => simp [readStatement] at h
        | cons t ts =>
            rw [readStatement] at h ⊢
            split_ifs at h ⊢ with hblock hif hwhile hdo hfor hother
            · obtain ⟨⟨stmts, rest⟩, hstmts, h⟩ := Option.bind_eq_some_iff.mp h
              simpa [ihb _ _ hstmts] using h
            · obtain ⟨⟨cond, rest₁⟩, hcond, h⟩ := Option.bind_eq_some_iff.mp h
              obtain ⟨⟨onTrue, rest₂⟩, htrue, h⟩ := Option.bind_eq_some_iff.mp h
              dsimp only at h
              split_ifs at h with helse
              · obtain ⟨⟨onFalse, rest₃⟩, hfalse, h⟩ := Option.bind_eq_some_iff.mp h
                simpa [hcond, ihs _ _ htrue, helse, ihs _ _ hfalse] using h
              · simpa [hcond, ihs _ _ htrue, helse] using h
            · obtain ⟨⟨cond, rest₁⟩, hcond, h⟩ := Option.bind_eq_some_iff.mp h
              obtain ⟨⟨body, rest₂⟩, hbody, h⟩ := Option.bind_eq_some_iff.mp h
              simpa [hcond, ihs _ _ hbody] using h
            · obtain ⟨⟨body, rest₁⟩, hbody, h⟩ := Option.bind_eq_some_iff.mp h
              simpa [ihs _ _ hbody] using h
            · obtain ⟨rest₁, hopen, h⟩ := Option.bind_eq_some_iff.mp h
              obtain ⟨⟨start, rest₂⟩, hstart, h⟩ := Option.bind_eq_some_iff.mp h
              obtain ⟨⟨cond, rest₃⟩, hcond, h⟩ := Option.bind_eq_some_iff.mp h
              obtain ⟨⟨advance, rest₄⟩, hadvance, h⟩ := Option.bind_eq_some_iff.mp h
              obtain ⟨⟨body, rest₅⟩, hbody, h⟩ := Option.bind_eq_some_iff.mp h
              simpa [hopen, hstart, hcond, hadvance, ihs _ _ hbody] using h
            · exact h
      · rw [readBlock] at h ⊢
        split_ifs at h ⊢ with hclose
        · exact h
        · obtain ⟨⟨s, rest₁⟩, hs, h⟩ := Option.bind_eq_some_iff.mp h
          obtain ⟨⟨more, rest₂⟩, hmore, h⟩ := Option.bind_eq_some_iff.mp h
          simpa [ihs _ _ hs, ihb _ _ hmore] using h

theorem readBlock_mono {fuel fuel' : Nat} (hle : fuel ≤ fuel') {ts : List Token}
    {read : List Shape × List Token} (h : readBlock fuel ts = some read) :
    readBlock fuel' ts = some read := by
  induction fuel', hle using Nat.le_induction with
  | base => exact h
  | succ fuel' _ ih => exact (read_more fuel').2 ts read ih

/-- No `else` can be the next token of a block that is read. -/
theorem head?_ne_else_of_readBlock {fuel : Nat} {ts : List Token}
    {read : List Shape × List Token} (h : readBlock fuel ts = some read) :
    ts.head? ≠ some (.word "else") := by
  intro helse
  obtain ⟨ts, rfl⟩ := List.head?_eq_some_iff.mp helse
  cases fuel with
  | zero => simp [readBlock] at h
  | succ fuel => cases fuel <;> simp [readBlock, readStatement] at h

/-- Attached statements are read in front of whatever is read behind them. -/
theorem readBlock_append {stmts more : List Shape} (hsane : SaneAll stmts)
    (hattached : attachedAll stmts = true) {fuel : Nat} {ts rest : List Token} (hfuel : 1 < fuel)
    (h : readBlock fuel ts = some (more, rest)) :
    readBlock (fuel + (tokensOf stmts).length) (tokensOf stmts ++ ts) =
      some (stmts ++ more, rest) := by
  induction stmts with
  | nil => exact h
  | cons s stmts ih =>
      simp only [SaneAll] at hsane
      simp only [attachedAll, Bool.and_eq_true] at hattached
      obtain ⟨t, us, htokens, -, hclose⟩ := exists_tokens_eq_cons hsane.1
      have hlength : 0 < s.tokens.length := by simp [htokens]
      obtain ⟨inner, hinner⟩ : ∃ inner, fuel + (tokensOf (s :: stmts)).length = inner + 1 :=
        ⟨fuel + (tokensOf (s :: stmts)).length - 1, by omega⟩
      simp only [tokensOf, List.length_append] at hinner
      have hmore := ih hsane.2 hattached.2
      have hs := (read_all inner).1 s (tokensOf stmts ++ ts) hsane.1 hattached.1
        (fun _ => head?_ne_else_of_readBlock hmore) (by omega)
      have hmore : readBlock inner (tokensOf stmts ++ ts) = some (stmts ++ more, rest) :=
        readBlock_mono (by omega) hmore
      have hhead : (s.tokens ++ (tokensOf stmts ++ ts)).head? ≠ some (.symbol "\x7d") := by
        simp [htokens, hclose]
      rw [tokensOf, List.append_assoc, List.length_append, hinner, readBlock, if_neg hhead]
      simp [hs, hmore]

end Shape

end Emitter.Reading
