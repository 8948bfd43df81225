import Emitter.Proofs.Reading.Performed

/-!
# The effects in a text of C

The calls, increments and decrements in a list of tokens, as many times as each is evaluated. The
operand of a `sizeof` is not evaluated. A bracket behind a keyword groups or belongs to a statement,
and a few library functions only compute a value.
-/

namespace Emitter.Reading

/-- The words that a bracket may stand behind without an effect: the keywords of statements, and the
library functions that only compute a value. -/
def idleNames : List String :=
  ["if", "else", "while", "do", "for", "return", "abs", "fabs", "sqrt", "strcmp", "streq", "strlen"]

/-- The effect of calling what stands in front of a bracket. -/
def callEffects : Option String → Multiset String
  | none => 0
  | some name => if name = "sizeof" ∨ name ∈ idleNames then 0 else {name}

theorem callEffects_of_mem {name : String} (h : name ∈ idleNames) : callEffects (some name) = 0 :=
  if_pos (.inr h)

theorem ne_sizeof_of_mem {name : String} (h : name ∈ idleNames) : name ≠ "sizeof" := by
  rintro rfl
  revert h
  decide

theorem callEffects_of_not_mem {name : String} (h : name ∉ "sizeof" :: idleNames) :
    callEffects (some name) = {name} :=
  if_neg (by simpa using h)

/-- How far the effects have been read: the name that was read last, the brackets that are open,
true for those of a `sizeof`, and the effects so far. -/
structure Reach where
  name : Option String
  opened : List Bool
  effects : Multiset String

namespace Reach

/-- What stands here is evaluated. -/
def isEvaluated (r : Reach) : Bool := !r.opened.contains true

/-- What happens where the reader is, if it is evaluated. -/
def meets (r : Reach) (effects : Multiset String) : Multiset String :=
  if r.isEvaluated then r.effects + effects else r.effects

def step (r : Reach) : Token → Reach
  | .word name => { r with name := some name }
  | .symbol s =>
    if s = "(" then
      ⟨none, decide (r.name = some "sizeof") :: r.opened, r.meets (callEffects r.name)⟩
    else if s = ")" then ⟨none, r.opened.tail, r.effects⟩
    else ⟨none, r.opened, r.meets (changes s)⟩
  | .number _ | .quoted _ => { r with name := none }

@[simp] theorem meets_zero (r : Reach) : r.meets 0 = r.effects := by simp [meets]

end Reach

/-- The effects in a text. -/
def evaluated (ts : List Token) : Multiset String :=
  (ts.foldl Reach.step ⟨none, [], 0⟩).effects

/-- A bracket behind the name only groups. -/
def Ready (name : Option String) : Prop := callEffects name = 0 ∧ name ≠ some "sizeof"

theorem ready_none : Ready none := ⟨rfl, by simp⟩

theorem ready_keyword {w : String} (h : w ∈ ["if", "else", "while", "do", "for", "return"]) :
    Ready (some w) := by
  have hkeywords : ∀ w ∈ ["if", "else", "while", "do", "for", "return"], w ∈ idleNames := by decide
  have hidle := hkeywords w h
  exact ⟨callEffects_of_mem hidle, fun heq => ne_sizeof_of_mem hidle (Option.some.inj heq)⟩

/-- Where a bracket would only group, the tokens are read as the effects, with all brackets
closed. -/
def Evaluates (ts : List Token) (effects : Multiset String) : Prop :=
  ∀ r : Reach, Ready r.name →
    ∃ name, ts.foldl Reach.step r = ⟨name, r.opened, r.meets effects⟩

/-- The tokens are read as the effects, and a bracket behind them only groups. -/
def Concludes (ts : List Token) (effects : Multiset String) : Prop :=
  ∀ r : Reach, Ready r.name →
    ∃ name, Ready name ∧ ts.foldl Reach.step r = ⟨name, r.opened, r.meets effects⟩

variable {ts us : List Token} {effects more : Multiset String} {s : String}

theorem Evaluates.evaluated_eq (h : Evaluates ts effects) : evaluated ts = effects := by
  obtain ⟨name, hread⟩ := h ⟨none, [], 0⟩ ready_none
  simp [evaluated, hread, Reach.meets, Reach.isEvaluated]

theorem Concludes.evaluates (h : Concludes ts effects) : Evaluates ts effects := fun r hr =>
  (h r hr).imp fun _ => And.right

theorem Concludes.nil : Concludes [] 0 := fun r hr => ⟨r.name, hr, by simp⟩

theorem Reach.meets_meets (r : Reach) (name : Option String) :
    (Reach.mk name r.opened (r.meets effects)).meets more = r.meets (effects + more) := by
  by_cases h : r.isEvaluated = true <;> simp_all [Reach.meets, Reach.isEvaluated, add_assoc]

theorem Concludes.append_evaluates (h : Concludes ts effects) (h' : Evaluates us more) :
    Evaluates (ts ++ us) (effects + more) := by
  intro r hr
  obtain ⟨name, hname, hread⟩ := h r hr
  obtain ⟨last, hlast⟩ := h' ⟨name, r.opened, r.meets effects⟩ hname
  exact ⟨last, by rw [List.foldl_append, hread, hlast, Reach.meets_meets]⟩

theorem Concludes.append (h : Concludes ts effects) (h' : Concludes us more) :
    Concludes (ts ++ us) (effects + more) := by
  intro r hr
  obtain ⟨name, hname, hread⟩ := h r hr
  obtain ⟨last, hready, hlast⟩ := h' ⟨name, r.opened, r.meets effects⟩ hname
  exact ⟨last, hready, by rw [List.foldl_append, hread, hlast, Reach.meets_meets]⟩

theorem Evaluates.word (name : String) : Evaluates [.word name] 0 :=
  fun r _ => ⟨some name, by simp [Reach.step]⟩

theorem Concludes.keyword {w : String} (h : w ∈ ["if", "else", "while", "do", "for", "return"]) :
    Concludes [.word w] 0 := fun r _ => ⟨some w, ready_keyword h, by simp [Reach.step]⟩

theorem Concludes.number (text : String) : Concludes [.number text] 0 :=
  fun r _ => ⟨none, ready_none, by simp [Reach.step]⟩

theorem Concludes.quoted (contents : String) : Concludes [.quoted contents] 0 :=
  fun r _ => ⟨none, ready_none, by simp [Reach.step]⟩

/-- Without brackets and signs of increments there is no effect. -/
theorem Evaluates.of_plain (h : ∀ s, .symbol s ∈ ts → s ∉ ["(", ")", "++", "--"]) :
    Evaluates ts 0 := by
  have hread : ∀ r : Reach, ∃ name, ts.foldl Reach.step r = ⟨name, r.opened, r.effects⟩ := by
    induction ts with
    | nil => exact fun r => ⟨r.name, rfl⟩
    | cons t ts ih =>
        intro r
        obtain ⟨name, hstep⟩ : ∃ name, r.step t = ⟨name, r.opened, r.effects⟩ := by
          cases t with
          | symbol s =>
              have hs := h s (by simp)
              simp only [List.mem_cons, List.not_mem_nil, or_false, not_or] at hs
              exact ⟨none, by simp [Reach.step, changes, hs]⟩
          | word name => exact ⟨some name, rfl⟩
          | _ => exact ⟨none, rfl⟩
        rw [List.foldl_cons, hstep]
        exact ih (fun s hs => h s (by simp [hs])) _
  intro r _
  simpa using hread r

/-- A symbol behind the tokens, which no longer end in a name. -/
theorem Evaluates.symbol (h : Evaluates ts effects) (hs : s ∉ ["(", ")"]) :
    Concludes (ts ++ [Token.symbol s]) (effects + changes s) := by
  intro r hr
  obtain ⟨name, hread⟩ := h r hr
  simp only [List.mem_cons, List.not_mem_nil, or_false, not_or] at hs
  refine ⟨none, ready_none, ?_⟩
  rw [List.foldl_append, hread]
  simp [Reach.step, hs.1, hs.2, Reach.meets_meets]

theorem Concludes.symbol (hs : s ∉ ["(", ")"]) : Concludes [.symbol s] (changes s) := by
  simpa using Concludes.nil.evaluates.symbol hs

/-- Brackets that are those of no `sizeof`, behind what is called if anything is. -/
theorem Evaluates.bracketed (h : Evaluates ts effects) {r : Reach}
    (hname : r.name ≠ some "sizeof") :
    (.symbol "(" :: (ts ++ [Token.symbol ")"])).foldl Reach.step r =
      ⟨none, r.opened, r.meets (callEffects r.name + effects)⟩ := by
  obtain ⟨name, hread⟩ :=
    h ⟨none, false :: r.opened, r.meets (callEffects r.name)⟩ ready_none
  have hmeets : (Reach.mk none (false :: r.opened) (r.meets (callEffects r.name))).meets effects =
      r.meets (callEffects r.name + effects) :=
    @Reach.meets_meets (callEffects r.name) effects r none ▸ rfl
  simp [Reach.step, hname, hread, hmeets]

theorem Evaluates.parenthesized (h : Evaluates ts effects) :
    Concludes (.symbol "(" :: (ts ++ [Token.symbol ")"])) effects := fun r hr =>
  ⟨none, ready_none, by rw [h.bracketed hr.2, hr.1, zero_add]⟩

/-- A call and the effects of its arguments. -/
theorem Evaluates.call (h : Evaluates ts effects) (name : String) (hname : name ≠ "sizeof") :
    Concludes (.word name :: .symbol "(" :: (ts ++ [Token.symbol ")"]))
      (callEffects (some name) + effects) := fun r _ =>
  ⟨none, ready_none, h.bracketed (r := { r with name := some name }) (by simpa using hname)⟩

/-- The operand of a `sizeof` is not evaluated. -/
theorem Evaluates.sizeof (h : Evaluates ts effects) :
    Concludes (.word "sizeof" :: .symbol "(" :: (ts ++ [Token.symbol ")"])) 0 := by
  intro r _
  obtain ⟨name, hread⟩ := h ⟨none, true :: r.opened, r.effects⟩ ready_none
  refine ⟨none, ready_none, ?_⟩
  have hcall : callEffects (some "sizeof") = 0 := rfl
  simp [Reach.step, hcall, hread, Reach.meets, Reach.isEvaluated]

/-- Two sides of a symbol that has no effect by itself. -/
theorem Evaluates.infixed (h : Evaluates ts effects) (h' : Evaluates us more) (hs : s ∉ ["(", ")"])
    (hplain : changes s = []) : Evaluates (ts ++ .symbol s :: us) (effects + more) := by
  simpa [hplain] using (h.symbol hs).append_evaluates h'

end Emitter.Reading
