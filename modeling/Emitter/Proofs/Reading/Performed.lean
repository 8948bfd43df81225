import Emitter.Proofs.Reading.Spelling

/-!
# The operations in a text

The calls, increments and decrements in a list of tokens, from left to right: a call where its
arguments end, and an increment or decrement where its sign stands. A call is a name with a bracket
right behind it; any other bracket only groups.
-/

namespace Emitter.Reading

/-- How far the operations have been read: the name that was read last, the callees of the brackets
that are open, and the operations that are complete. -/
structure Progress where
  callee : Option String
  pending : List (Option String)
  complete : List String

/-- The operation that a symbol is by itself. -/
def changes (s : String) : List String := if s ∈ ["++", "--"] then [s] else []

def Progress.step (p : Progress) : Token → Progress
  | .word name => { p with callee := some name }
  | .symbol s =>
    if s = "(" then ⟨none, p.callee :: p.pending, p.complete⟩
    else if s = ")" then ⟨none, p.pending.tail, p.complete ++ p.pending.head?.join.toList⟩
    else ⟨none, p.pending, p.complete ++ changes s⟩
  | .number _ | .quoted _ => { p with callee := none }

/-- The operations in a text. -/
def performed (ts : List Token) : List String := (ts.foldl Progress.step ⟨none, [], []⟩).complete

/-- Behind anything but a name, the tokens are read as the operations, with all brackets closed. -/
def Performs (ts : List Token) (ops : List String) : Prop :=
  ∀ p : Progress, p.callee = none →
    ∃ callee, ts.foldl Progress.step p = ⟨callee, p.pending, p.complete ++ ops⟩

/-- The tokens are read as the operations, and they do not end in a name. -/
def Completes (ts : List Token) (ops : List String) : Prop :=
  ∀ p : Progress, p.callee = none →
    ts.foldl Progress.step p = ⟨none, p.pending, p.complete ++ ops⟩

variable {ts us : List Token} {ops more : List String} {s : String}

theorem Performs.performed_eq (h : Performs ts ops) : performed ts = ops := by
  obtain ⟨callee, hread⟩ := h ⟨none, [], []⟩ rfl
  simp [performed, hread]

theorem Completes.performs (h : Completes ts ops) : Performs ts ops := fun p hp => ⟨none, h p hp⟩

theorem Completes.nil : Completes [] [] := by
  intro p hp
  simp [← hp]

theorem Completes.append_performs (h : Completes ts ops) (h' : Performs us more) :
    Performs (ts ++ us) (ops ++ more) := by
  intro p hp
  rw [List.foldl_append, h p hp]
  simpa only [List.append_assoc] using h' ⟨none, p.pending, p.complete ++ ops⟩ rfl

theorem Performs.word (name : String) : Performs [.word name] [] :=
  fun p _ => ⟨some name, by simp [Progress.step]⟩

theorem Completes.number (text : String) : Completes [.number text] [] := by
  intro p hp
  simp [Progress.step]

theorem Completes.quoted (contents : String) : Completes [.quoted contents] [] := by
  intro p hp
  simp [Progress.step]

/-- Without brackets and signs of increments there is nothing to perform. -/
theorem Performs.of_plain (h : ∀ s, .symbol s ∈ ts → s ∉ ["(", ")", "++", "--"]) :
    Performs ts [] := by
  have hread :
      ∀ p : Progress, ∃ callee, ts.foldl Progress.step p = ⟨callee, p.pending, p.complete⟩ := by
    induction ts with
    | nil => exact fun p => ⟨p.callee, rfl⟩
    | cons t ts ih =>
        intro p
        obtain ⟨callee, hstep⟩ : ∃ callee, p.step t = ⟨callee, p.pending, p.complete⟩ := by
          cases t with
          | symbol s =>
              have hs := h s (by simp)
              simp only [List.mem_cons, List.not_mem_nil, or_false, not_or] at hs
              exact ⟨none, by simp [Progress.step, changes, hs]⟩
          | word name => exact ⟨some name, rfl⟩
          | _ => exact ⟨none, rfl⟩
        rw [List.foldl_cons, hstep]
        exact ih (fun s hs => h s (by simp [hs])) _
  intro p _
  simpa using hread p

/-- A symbol behind the tokens, which no longer end in a name. -/
theorem Performs.symbol (h : Performs ts ops) (hs : s ∉ ["(", ")"]) :
    Completes (ts ++ [Token.symbol s]) (ops ++ changes s) := by
  intro p hp
  obtain ⟨callee, hread⟩ := h p hp
  simp only [List.mem_cons, List.not_mem_nil, or_false, not_or] at hs
  simp [hread, Progress.step, hs.1, hs.2]

theorem Completes.symbol (hs : s ∉ ["(", ")"]) : Completes [.symbol s] (changes s) :=
  Completes.nil.performs.symbol hs

theorem Performs.parenthesized (h : Performs ts ops) :
    Completes (.symbol "(" :: (ts ++ [Token.symbol ")"])) ops := by
  intro p hp
  obtain ⟨callee, hread⟩ := h ⟨none, none :: p.pending, p.complete⟩ rfl
  simp [Progress.step, hp, hread]

/-- A call is complete behind the operations of its arguments. -/
theorem Performs.call (h : Performs ts ops) (name : String) :
    Completes (.word name :: .symbol "(" :: (ts ++ [Token.symbol ")"])) (ops ++ [name]) := by
  intro p hp
  obtain ⟨callee, hread⟩ := h ⟨none, some name :: p.pending, p.complete⟩ rfl
  simp [Progress.step, hread]

/-- Two sides of a symbol that is no operation by itself. -/
theorem Performs.infixed (h : Performs ts ops) (h' : Performs us more) (hs : s ∉ ["(", ")"])
    (hplain : changes s = []) : Performs (ts ++ .symbol s :: us) (ops ++ more) := by
  simpa [hplain] using (h.symbol hs).append_performs h'

end Emitter.Reading
