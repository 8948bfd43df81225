import Emitter.Number.Text
import Emitter.Proofs.Reading.Piece

/-!
# Numbers are printed as numerals

The decimal text of a natural number, and that of the magnitude of every double, is one token of a
number. It ends in a digit, so that no sign behind it is taken for the one of an exponent.
-/

namespace Emitter.Reading

open Number

/-- The text is a number that no sign behind it goes on with. -/
structure IsNumeral (text : String) : Prop where
  number : isNumber text = true
  last : ∀ c ∈ text.toList.getLast?, c ∉ ['e', 'E', 'p', 'P']

/-- Digits and points go on with any number. -/
theorem numberTail_append {as bs : List Char} (ha : ∀ c ∈ as, c.isDigit = true ∨ c = '.')
    (hb : ∀ before, numberTail before bs = true) (before : Char) :
    numberTail before (as ++ bs) = true := by
  induction as generalizing before with
  | nil => exact hb before
  | cons a as ih =>
      obtain ⟨h, has⟩ := List.forall_mem_cons.mp ha
      have hgoes : continuesNumber before a = true := by
        rcases h with h | rfl <;> simp [continuesNumber, isWordChar, *]
      simp [numberTail, hgoes, ih has]

theorem numberTail_of_plain {cs : List Char} (h : ∀ c ∈ cs, c.isDigit = true ∨ c = '.')
    (before : Char) : numberTail before cs = true := by
  have htail := numberTail_append h (fun _ => rfl : ∀ c, numberTail c [] = true) before
  simpa using htail

theorem not_exponent_of_isDigit {c : Char} (h : c.isDigit = true) : c ∉ ['e', 'E', 'p', 'P'] := by
  have hall : ∀ c ∈ ['e', 'E', 'p', 'P'], c.isDigit = false := by decide
  intro hmem
  simp [hall c hmem] at h

/-- A text that starts with a digit, goes on as a number does, and ends in a digit. -/
theorem IsNumeral.of_digits {c : Char} {cs : List Char} (hc : c.isDigit = true)
    (hcs : ∀ before, numberTail before cs = true)
    (hlast : ∀ d ∈ (c :: cs).getLast?, d.isDigit = true) : IsNumeral (String.ofList (c :: cs)) where
  number := by simp [isNumber, hc, hcs]
  last d hd := not_exponent_of_isDigit (hlast d (by simpa using hd))

theorem isDigit_of_mem_digitText {n : Nat} {c : Char} (h : c ∈ digitText n) : c.isDigit = true :=
  Nat.isDigit_of_mem_toDigits (by decide) (by decide) h

/-- Only the digits of zero start with a zero. -/
theorem exists_toDigits_eq_cons {n : Nat} (hn : n ≠ 0) :
    ∃ c cs, Nat.toDigits 10 n = c :: cs ∧ c ≠ '0' := by
  induction n using Nat.strongRecOn with
  | ind n ih =>
  by_cases hlt : n < 10
  · exact ⟨_, _, Nat.toDigits_of_lt_base hlt, by interval_cases n <;> simp_all⟩
  · obtain ⟨c, cs, hcs, hc⟩ := ih (n / 10) (by omega) (by omega)
    refine ⟨c, cs ++ [Nat.digitChar (n % 10)], ?_, hc⟩
    rw [Nat.toDigits_of_base_le (by decide) (by omega), hcs]
    rfl

theorem isNumeral_toString (n : Nat) : IsNumeral (toString n) := by
  have hdigits : ∀ c ∈ Nat.toDigits 10 n, c.isDigit = true := fun c hc =>
    Nat.isDigit_of_mem_toDigits (by decide) (by decide) hc
  rw [Nat.toString_eq_ofList_toDigits]
  obtain ⟨c, cs, hsplit⟩ := List.exists_cons_of_ne_nil (Nat.toDigits_ne_nil (n := n) (b := 10))
  rw [hsplit] at hdigits ⊢
  exact .of_digits (hdigits c (by simp))
    (numberTail_of_plain fun d hd => .inl (hdigits d (List.mem_cons_of_mem _ hd)))
    fun d hd => hdigits d (List.mem_of_getLast? hd)

/-- The text of a double with a point: digits, a point and digits. -/
theorem isNumeral_pointText {digits : List Char} (h : ∀ c ∈ digits, c.isDigit = true)
    (hne : digits ≠ []) (whole : Int) : IsNumeral (String.ofList (pointText digits whole)) := by
  have hzeros : ∀ {n : Nat} {c : Char}, c ∈ List.replicate n '0' → c.isDigit = true := by
    intro n c hc
    rw [List.eq_of_mem_replicate hc]
    decide
  unfold pointText
  split_ifs with hwhole hlength
  · change IsNumeral (String.ofList ('0' :: '.' :: (List.replicate (-whole).toNat '0' ++ digits)))
    refine .of_digits (by decide) (numberTail_of_plain fun c hc => ?_) fun d hd => ?_
    · simp only [List.mem_cons, List.mem_append] at hc
      rcases hc with rfl | hc | hc
      · exact .inr rfl
      · exact .inl (hzeros hc)
      · exact .inl (h c hc)
    · refine h d (List.mem_of_getLast? ?_)
      obtain ⟨l, hl⟩ := Option.isSome_iff_exists.mp (List.getLast?_isSome.mpr hne)
      have : ('0' :: '.' :: List.replicate (-whole).toNat '0' ++ digits).getLast? = some l := by
        rw [List.getLast?_append, hl, Option.some_or]
      rw [hl]
      exact this.symm.trans hd
  · obtain ⟨c, cs, rfl⟩ := List.exists_cons_of_ne_nil hne
    rw [List.cons_append, List.cons_append]
    refine .of_digits (h c (by simp)) (numberTail_of_plain fun d hd => ?_) fun d hd => ?_
    · simp only [List.mem_append, List.mem_cons, List.not_mem_nil, or_false] at hd
      rcases hd with (hd | hd) | rfl | rfl
      · exact .inl (h d (List.mem_cons_of_mem _ hd))
      · exact .inl (hzeros hd)
      · exact .inr rfl
      · exact .inl (by decide)
    · obtain rfl : '0' = d := by
        rw [← List.cons_append, List.getLast?_append] at hd
        simpa using hd
      decide
  · obtain ⟨c, cs, rfl⟩ := List.exists_cons_of_ne_nil hne
    obtain ⟨n, hn⟩ : ∃ n, whole.toNat = n + 1 := ⟨whole.toNat - 1, by omega⟩
    rw [hn, List.length_cons] at hlength
    rw [hn, List.take_succ_cons, List.drop_succ_cons, List.cons_append]
    refine .of_digits (h c (by simp)) (numberTail_of_plain fun d hd => ?_) fun d hd => ?_
    · simp only [List.mem_append, List.mem_cons] at hd
      rcases hd with hd | rfl | hd
      · exact .inl (h d (List.mem_cons_of_mem _ (List.mem_of_mem_take hd)))
      · exact .inr rfl
      · exact .inl (h d (List.mem_cons_of_mem _ (List.mem_of_mem_drop hd)))
    · have hdrop : cs.drop n ≠ [] := by
        simp only [ne_eq, List.drop_eq_nil_iff]
        omega
      refine h d (List.mem_cons_of_mem _ (List.mem_of_mem_drop (i := n) (List.mem_of_getLast? ?_)))
      obtain ⟨l, hl⟩ := Option.isSome_iff_exists.mp (List.getLast?_isSome.mpr hdrop)
      have : (c :: (cs.take n ++ '.' :: cs.drop n)).getLast? = some l := by
        rw [List.getLast?_cons, List.getLast?_append, List.getLast?_cons, hl]
        rfl
      rw [hl]
      exact this.symm.trans hd

/-- The text of a double with a power of ten. -/
theorem isNumeral_powerText {digits : List Char} (h : ∀ c ∈ digits, c.isDigit = true)
    (hne : digits ≠ []) (power : Int) : IsNumeral (String.ofList (powerText digits power)) := by
  obtain ⟨c, cs, rfl⟩ := List.exists_cons_of_ne_nil hne
  obtain ⟨hc, hcs⟩ := List.forall_mem_cons.mp h
  have hpower : ∃ sign : List Char, (sign = [] ∨ sign = ['-']) ∧
      (toString power).toList = sign ++ Nat.toDigits 10 power.natAbs := by
    cases power with
    | ofNat n => exact ⟨[], .inl rfl, by simp [toString, Int.repr]⟩
    | negSucc n => exact ⟨['-'], .inr rfl, by simp [toString, Int.repr]⟩
  obtain ⟨sign, hsign, hpower⟩ := hpower
  have hdigits : ∀ d ∈ Nat.toDigits 10 power.natAbs, d.isDigit = true := fun d hd =>
    Nat.isDigit_of_mem_toDigits (by decide) (by decide) hd
  have hexponent : ∀ before, numberTail before ('e' :: (toString power).toList) = true := by
    intro before
    have hrest := numberTail_of_plain fun d hd => .inl (hdigits d hd)
    have hletter : isWordChar 'e' = true := by decide
    rcases hsign with rfl | rfl
    · rw [hpower]
      simp [numberTail, continuesNumber, hletter, hrest]
    · rw [hpower]
      simp [numberTail, continuesNumber, hletter, hrest]
  have hlast : ∀ rest : List Char, ∀ d ∈ (rest ++ 'e' :: (toString power).toList).getLast?,
      d.isDigit = true := by
    intro rest d hd
    obtain ⟨l, hl⟩ := Option.isSome_iff_exists.mp
      (List.getLast?_isSome.mpr (Nat.toDigits_ne_nil (n := power.natAbs) (b := 10)))
    rw [hpower, List.getLast?_append, List.getLast?_cons, List.getLast?_append, hl] at hd
    obtain rfl : l = d := by simpa using hd
    exact hdigits l (List.mem_of_getLast? hl)
  have hcode : powerText (c :: cs) power =
      c :: ((if cs.isEmpty then [] else '.' :: cs) ++ 'e' :: (toString power).toList) := by
    simp [powerText]
  rw [hcode]
  refine .of_digits hc (numberTail_append (fun d hd => ?_) hexponent) fun d hd => ?_
  · split_ifs at hd
    · simp at hd
    · rcases List.mem_cons.mp hd with rfl | hd
      · exact .inr rfl
      · exact .inl (hcs d hd)
  · rw [← List.cons_append] at hd
    exact hlast _ d hd

/-- The magnitude of every double is printed as one number. -/
theorem isNumeral_magnitudeText (x : Binary64) : IsNumeral x.magnitudeText := by
  unfold Binary64.magnitudeText
  split_ifs
  · exact ⟨by decide, by decide⟩
  · simp only
    split_ifs
    · exact isNumeral_pointText (fun c hc => isDigit_of_mem_digitText hc) Nat.toDigits_ne_nil _
    · exact isNumeral_powerText (fun c hc => isDigit_of_mem_digitText hc) Nat.toDigits_ne_nil _

end Emitter.Reading
