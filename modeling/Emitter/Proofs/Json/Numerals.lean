import Emitter.Json.Parser
import Emitter.Json.Printer
import Emitter.Proofs.Reading.Numerals

/-!
# Numbers in JSON texts

A number that is written with at least one digit after its point, if it has one, is read back as it
was, digit for digit.
-/

namespace Emitter.Json

theorem digitsValue_append (value : ℕ) (cs ds : List Char) :
    digitsValue value (cs ++ ds) = digitsValue (digitsValue value cs) ds := List.foldl_append

theorem digitsValue_eq (value : ℕ) (cs : List Char) :
    digitsValue value cs = value * 10 ^ cs.length + digitsValue 0 cs := by
  induction cs using List.reverseRecOn with
  | nil => simp [digitsValue]
  | append_singleton cs c ih =>
      rw [digitsValue_append, digitsValue_append, ih]
      simp only [digitsValue, List.foldl_cons, List.foldl_nil, List.length_append,
        List.length_singleton, pow_succ]
      ring

theorem digitsValue_replicate_zero (count : ℕ) : digitsValue 0 (List.replicate count '0') = 0 := by
  induction count with
  | zero => rfl
  | succ count ih => exact ih

theorem digitsValue_toDigits (n : ℕ) : digitsValue 0 (Nat.toDigits 10 n) = n := by
  induction n using Nat.strongRecOn with
  | ind n ih =>
  have hdigit : ∀ d < 10, (Nat.digitChar d).toNat - 48 = d := by decide
  by_cases hn : n < 10
  · rw [Nat.toDigits_of_lt_base hn]
    simp [digitsValue, hdigit n hn]
  · rw [Nat.toDigits_of_base_le (by decide) (by omega), digitsValue_append, ih (n / 10) (by omega)]
    have := hdigit (n % 10) (by omega)
    simp only [digitsValue, List.foldl_cons, List.foldl_nil]
    omega

theorem isDigit_of_mem_toDigits {n : ℕ} {c : Char} (h : c ∈ Nat.toDigits 10 n) :
    c.isDigit = true := Nat.isDigit_of_mem_toDigits (by decide) (by decide) h

section Padded

variable {count n : ℕ} (h : n < 10 ^ count) (hcount : 0 < count)

include h hcount

theorem length_paddedDigits : (paddedDigits count n).length = count := by
  have hlength := (Nat.length_toDigits_le_iff (b := 10) (by decide) hcount).mpr h
  simp only [paddedDigits, List.length_append, List.length_replicate]
  omega

end Padded

theorem digitsValue_paddedDigits (count n : ℕ) : digitsValue 0 (paddedDigits count n) = n := by
  unfold paddedDigits
  rw [digitsValue_append, digitsValue_replicate_zero, digitsValue_toDigits]

theorem isDigit_of_mem_paddedDigits {count n : ℕ} {c : Char} (h : c ∈ paddedDigits count n) :
    c.isDigit = true := by
  rcases List.mem_append.mp h with h | h
  · obtain ⟨-, rfl⟩ := List.mem_replicate.mp h
    rfl
  · exact isDigit_of_mem_toDigits h

/-- The characters start with nothing that would belong to a number. -/
def EndsNumber (rest : List Char) : Prop :=
  ∀ c ∈ rest.head?, c.isDigit = false ∧ c ≠ '.' ∧ c ≠ 'e' ∧ c ≠ 'E'

theorem takeDigits_append {ds rest : List Char} (h : ∀ c ∈ ds, c.isDigit = true)
    (hrest : ∀ c ∈ rest.head?, c.isDigit = false) : takeDigits (ds ++ rest) = (ds, rest) := by
  have hstop : rest.takeWhile Char.isDigit = [] ∧ rest.dropWhile Char.isDigit = rest := by
    cases rest with
    | nil => exact ⟨rfl, rfl⟩
    | cons c cs => simp [hrest c rfl]
  rw [takeDigits, List.takeWhile_append_of_pos h, List.dropWhile_append_of_pos h, hstop.1, hstop.2,
    List.append_nil]

/-- The digits of a number start with a zero only if there is no other digit. -/
theorem readWhole_toDigits (n : ℕ) {rest : List Char}
    (hrest : ∀ c ∈ rest.head?, c.isDigit = false) :
    readWhole (Nat.toDigits 10 n ++ rest) = some (Nat.toDigits 10 n, rest) := by
  by_cases hn : n = 0
  · subst hn
    rfl
  · obtain ⟨c, cs, hcs, hc⟩ := Reading.exists_toDigits_eq_cons hn
    have htake := takeDigits_append (fun c h => isDigit_of_mem_toDigits (n := n) h) hrest
    rw [hcs] at htake ⊢
    rw [List.cons_append] at htake ⊢
    unfold readWhole
    split
    · rename_i heq
      exact absurd (List.cons.inj heq).1 hc
    · rw [htake]

theorem readFraction_point {ds rest : List Char} (h : ∀ c ∈ ds, c.isDigit = true) (hne : ds ≠ [])
    (hrest : ∀ c ∈ rest.head?, c.isDigit = false) :
    readFraction ('.' :: ds ++ rest) = some (ds, rest) := by
  obtain ⟨c, cs, rfl⟩ := List.exists_cons_of_ne_nil hne
  have htake := takeDigits_append h hrest
  simp only [List.cons_append] at htake ⊢
  simp only [readFraction, htake]

theorem readFraction_none {rest : List Char} (h : ∀ c ∈ rest.head?, c ≠ '.') :
    readFraction rest = some ([], rest) := by
  unfold readFraction
  split
  · exact absurd rfl (h '.' rfl)
  · rfl

theorem readPower_none {rest : List Char} (h : ∀ c ∈ rest.head?, c ≠ 'e' ∧ c ≠ 'E') :
    readPower rest = some (none, rest) := by
  cases rest with
  | nil => rfl
  | cons c cs =>
      have := h c rfl
      simp [readPower, this.1, this.2]

theorem readPower_power (power : ℤ) {rest : List Char}
    (hrest : ∀ c ∈ rest.head?, c.isDigit = false) :
    readPower ('e' :: (toString power).toList ++ rest) = some (some power, rest) := by
  have htake : ∀ n, takeDigits (Nat.toDigits 10 n ++ rest) = (Nat.toDigits 10 n, rest) := fun n =>
    takeDigits_append (fun c h => isDigit_of_mem_toDigits h) hrest
  have hcons : ∀ n, ∃ c cs, Nat.toDigits 10 n = c :: cs ∧ c.isDigit = true := fun n => by
    obtain ⟨c, cs, hcs⟩ := List.exists_cons_of_ne_nil (Nat.toDigits_ne_nil (n := n) (b := 10))
    exact ⟨c, cs, hcs, isDigit_of_mem_toDigits (by rw [hcs]; exact List.mem_cons_self)⟩
  cases power with
  | ofNat n =>
      have hpower : (toString (Int.ofNat n)).toList = Nat.toDigits 10 n := by
        simp [toString, Int.repr]
      obtain ⟨c, cs, hcs, hc⟩ := hcons n
      have hvalue := digitsValue_toDigits n
      have htake := htake n
      rw [hcs] at htake hvalue
      have hsign : c ≠ '+' ∧ c ≠ '-' := by
        constructor <;> (rintro rfl; exact absurd hc (by decide))
      rw [hpower, hcs]
      simp only [List.cons_append] at htake ⊢
      simp [readPower, hsign.1, hsign.2, htake, hvalue]
  | negSucc n =>
      have hpower : (toString (Int.negSucc n)).toList = '-' :: Nat.toDigits 10 (n + 1) := by
        simp [toString, Int.repr]
      obtain ⟨c, cs, hcs, -⟩ := hcons (n + 1)
      have hvalue := digitsValue_toDigits (n + 1)
      have htake := htake (n + 1)
      rw [hcs] at htake hvalue
      rw [hpower, hcs]
      simp only [List.cons_append] at htake ⊢
      simp [readPower, htake, hvalue, Int.negSucc_eq]

/-- A number that can be written: there is a digit after its point, if it has one. -/
def Numeral.Writable (n : Numeral) : Prop := n.places ≠ some 0

/-- The digits of a number with its point, if it has one. -/
theorem readDigits_render {n : Numeral} (h : n.Writable) {rest : List Char}
    (hrest : ∀ c ∈ rest.head?, c.isDigit = false ∧ c ≠ '.') : ∃ whole fraction after,
      (match n.places with
        | none => Nat.toDigits 10 n.digits
        | some places => Nat.toDigits 10 (n.digits / Nat.pow 10 places) ++
            '.' :: paddedDigits places (n.digits % Nat.pow 10 places)) ++ rest = whole ++ after ∧
        readWhole (whole ++ after) = some (whole, after) ∧
          readFraction after = some (fraction, rest) ∧
            digitsValue 0 (whole ++ fraction) = n.digits ∧
              (if fraction.isEmpty then none else some fraction.length) = n.places := by
  obtain ⟨negative, digits, places, power⟩ := n
  cases places with
  | none =>
      refine ⟨Nat.toDigits 10 digits, [], rest, rfl, readWhole_toDigits digits fun c hc =>
        (hrest c hc).1, readFraction_none fun c hc => (hrest c hc).2, ?_, rfl⟩
      rw [List.append_nil]
      exact digitsValue_toDigits digits
  | some places =>
      have hplaces : 0 < places := Nat.pos_of_ne_zero fun hzero => h (by rw [hzero])
      have hlt : digits % 10 ^ places < 10 ^ places := Nat.mod_lt _ (by positivity)
      have hlength := length_paddedDigits hlt hplaces
      have hne : paddedDigits places (digits % 10 ^ places) ≠ [] := by
        intro hnil
        rw [hnil] at hlength
        exact hplaces.ne hlength
      refine ⟨Nat.toDigits 10 (digits / 10 ^ places), paddedDigits places (digits % 10 ^ places),
        '.' :: paddedDigits places (digits % 10 ^ places) ++ rest, ?_, ?_, ?_, ?_, ?_⟩
      · simp [Nat.pow_eq]
      · refine readWhole_toDigits _ fun c hc => ?_
        obtain rfl : '.' = c := by simpa using hc
        rfl
      · exact readFraction_point (fun c => isDigit_of_mem_paddedDigits) hne fun c hc =>
          (hrest c hc).1
      · rw [digitsValue_append, digitsValue_eq, digitsValue_toDigits, digitsValue_paddedDigits,
          hlength,
          Nat.div_add_mod']
      · simp [hne, hlength]

/-- The parts of a number after its sign, none of which starts with a sign itself. -/
theorem readNumber_parts (negative : Bool)
    {cs whole fraction afterWhole afterFraction rest : List Char} {power : Option ℤ}
    (hwhole : readWhole cs = some (whole, afterWhole))
    (hfraction : readFraction afterWhole = some (fraction, afterFraction))
    (hpower : readPower afterFraction = some (power, rest)) :
    readNumber ((if negative then ['-'] else []) ++ cs) = some (⟨negative,
      digitsValue 0 (whole ++ fraction), if fraction.isEmpty then none else some fraction.length,
      power⟩, rest) := by
  cases negative with
  | true => simp [readNumber, hwhole, hfraction, hpower]
  | false =>
      have hsign : ∀ c ∈ cs.head?, c ≠ '-' := by
        rintro _ hc rfl
        obtain ⟨_, rfl⟩ := List.head?_eq_some_iff.mp hc
        simp [readWhole, takeDigits] at hwhole
      cases cs with
      | nil => simp [readNumber, hwhole, hfraction, hpower]
      | cons c cs => simp [readNumber, hsign c rfl, hwhole, hfraction, hpower]

theorem readNumber_render {n : Numeral} (h : n.Writable) {rest : List Char}
    (hrest : EndsNumber rest) :
    readNumber (n.render ++ rest) = some (n, rest) := by
  obtain ⟨powerText, hpowerText, hhead, hpower⟩ : ∃ powerText : List Char,
      n.power.elim [] (fun power => 'e' :: (toString power).toList) = powerText ∧
      (∀ c ∈ (powerText ++ rest).head?, c.isDigit = false ∧ c ≠ '.') ∧
        readPower (powerText ++ rest) = some (n.power, rest) := by
    cases n.power with
    | none => exact ⟨[], rfl, fun c hc => ⟨(hrest c hc).1, (hrest c hc).2.1⟩,
        readPower_none fun c hc => (hrest c hc).2.2⟩
    | some power => exact ⟨_, rfl, by simp, readPower_power power fun c hc => (hrest c hc).1⟩
  obtain ⟨whole, fraction, after, hbody, hwhole, hfraction, hdigits, hplaces⟩ :=
    readDigits_render h hhead
  have hrender : n.render ++ rest = (if n.negative then ['-'] else []) ++ (whole ++ after) := by
    rw [← hbody, ← hpowerText, Numeral.render]
    cases n.places <;> cases n.power <;>
      simp only [Option.elim_none, Option.elim_some, List.append_assoc]
  rw [hrender, readNumber_parts n.negative hwhole hfraction hpower, hdigits, hplaces]
end Emitter.Json
