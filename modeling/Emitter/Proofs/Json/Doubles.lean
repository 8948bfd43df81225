import Emitter.Json.Basic
import Mathlib.Tactic
import Mathlib.Data.Nat.Digits.Lemmas

/-!
# Doubles that read back

The number that a finite double is written as reads back as the same double. A decimal is rounded to
the multiples of a power of two, which is settled by the decimal's value alone; the exact value of a
double is such a multiple, and a shorter decimal is only taken if it reads back.
-/

namespace Emitter.Number

theorem roundHalfEven_mul_left {k : ℕ} (hk : 0 < k) (num den : ℕ) :
    roundHalfEven (k * num) (k * den) = roundHalfEven num den := by
  have hlt : 2 * (k * (num % den)) < k * den ↔ 2 * (num % den) < den := by
    rw [Nat.mul_left_comm, Nat.mul_lt_mul_left hk]
  have hgt : k * den < 2 * (k * (num % den)) ↔ den < 2 * (num % den) := by
    rw [Nat.mul_left_comm, Nat.mul_lt_mul_left hk]
  simp only [roundHalfEven, Nat.mul_div_mul_left _ _ hk, Nat.mul_mod_mul_left, hlt, hgt]

/-- A multiple is not rounded. -/
theorem roundHalfEven_exact {den : ℕ} (hden : 0 < den) (n : ℕ) :
    roundHalfEven (n * den) den = n := by
  simp [roundHalfEven, Nat.mul_div_cancel _ hden, hden]

namespace Binary64

/-! The doubles around a number are the multiples of one power of two, and rounding to a double is
rounding to that grid. -/

/-- The doubles around the number are the multiples of this power of two. -/
structure Grid (r : ℚ) (g : ℤ) : Prop where
  least : -1074 ≤ g
  above : r < 2 ^ (g + 53)
  below : g = -1074 ∨ 2 ^ (g + 52) ≤ r

theorem Grid.unique {r : ℚ} {g g' : ℤ} (h : Grid r g) (h' : Grid r g') : g = g' := by
  have hle : ∀ {g g' : ℤ}, Grid r g → Grid r g' → g' ≤ g := by
    intro g g' h h'
    rcases h'.below with hleast | hbelow
    · exact hleast ▸ h.least
    · have := (zpow_lt_zpow_iff_right₀ (one_lt_two (α := ℚ))).mp (hbelow.trans_lt h.above)
      omega
  exact le_antisymm (hle h' h) (hle h h')

/-- Whether the multiple of a power of two has at most fifty-three bits. -/
theorem scaled_lt_iff {num den : ℕ} (hden : 0 < den) (guess : ℤ) :
    (if guess < 0 then num * Nat.pow 2 (-guess).toNat / den
      else num / (den * Nat.pow 2 guess.toNat)) <
      Nat.pow 2 53 ↔ (num / den : ℚ) < 2 ^ (guess + 53) := by
  have hden' : (0 : ℚ) < den := by exact_mod_cast hden
  rw [div_lt_iff₀ hden', zpow_add₀ two_ne_zero]
  split_ifs with hguess
  · obtain ⟨k, rfl⟩ : ∃ k : ℕ, guess = -k := ⟨(-guess).toNat, by omega⟩
    have hpow : (0 : ℚ) < 2 ^ k := by positivity
    rw [Nat.div_lt_iff_lt_mul hden]
    simp only [neg_neg, Int.toNat_natCast, Nat.pow_eq, zpow_neg, zpow_natCast]
    rw [inv_mul_eq_div, div_mul_eq_mul_div, lt_div_iff₀ hpow]
    norm_cast
  · obtain ⟨k, rfl⟩ : ∃ k : ℕ, guess = k := ⟨guess.toNat, by omega⟩
    simp only [Int.toNat_natCast, Nat.pow_eq, zpow_natCast]
    rw [Nat.div_lt_iff_lt_mul (by positivity)]
    norm_cast
    rw [mul_comm (2 ^ k), mul_assoc, mul_comm (2 ^ k)]

theorem grid_gridExponent {num den : ℕ} (hnum : 0 < num) (hden : 0 < den) :
    Grid (num / den) (gridExponent num den) := by
  have htwo : (1 : ℚ) ≤ 2 := one_le_two
  have hden' : (0 : ℚ) < den := by exact_mod_cast hden
  have hnum₁ : (2 : ℚ) ^ (num.log2 : ℤ) ≤ num := by exact_mod_cast Nat.log2_self_le hnum.ne'
  have hnum₂ : (num : ℚ) < 2 ^ ((num.log2 : ℤ) + 1) := by exact_mod_cast Nat.lt_log2_self
  have hden₁ : (2 : ℚ) ^ (den.log2 : ℤ) ≤ den := by exact_mod_cast Nat.log2_self_le hden.ne'
  have hden₂ : (den : ℚ) < 2 ^ ((den.log2 : ℤ) + 1) := by exact_mod_cast Nat.lt_log2_self
  have hlow : (2 : ℚ) ^ ((num.log2 : ℤ) - den.log2 - 1) ≤ num / den := by
    rw [le_div_iff₀ hden']
    calc (2 : ℚ) ^ ((num.log2 : ℤ) - den.log2 - 1) * den
        ≤ 2 ^ ((num.log2 : ℤ) - den.log2 - 1) * 2 ^ ((den.log2 : ℤ) + 1) := by gcongr
      _ = 2 ^ (num.log2 : ℤ) := by rw [← zpow_add₀ two_ne_zero]; congr 1; ring
      _ ≤ num := hnum₁
  have hhigh : (num / den : ℚ) < 2 ^ ((num.log2 : ℤ) - den.log2 + 1) := by
    rw [div_lt_iff₀ hden']
    calc (num : ℚ) < 2 ^ ((num.log2 : ℤ) + 1) := hnum₂
      _ = 2 ^ ((num.log2 : ℤ) - den.log2 + 1) * 2 ^ (den.log2 : ℤ) := by
        rw [← zpow_add₀ two_ne_zero]; congr 1; ring
      _ ≤ 2 ^ ((num.log2 : ℤ) - den.log2 + 1) * den := by gcongr
  -- The guess is the grid or one below it.
  obtain ⟨guess, hguess⟩ : ∃ guess : ℤ, guess = max ((num.log2 : ℤ) - den.log2 - 53) (-1074) :=
    ⟨_, rfl⟩
  have hgrid : gridExponent num den =
      if (num / den : ℚ) < 2 ^ (guess + 53) then guess else guess + 1 := by
    have hscaled := @scaled_lt_iff num den hden guess
    unfold gridExponent
    rw [← hguess]
    by_cases h : (num / den : ℚ) < 2 ^ (guess + 53)
    · rw [if_pos h, if_pos (hscaled.mpr h)]
    · rw [if_neg h, if_neg (mt hscaled.mp h)]
  rw [hgrid]
  split_ifs with h
  · refine ⟨by omega, h, ?_⟩
    rcases max_cases ((num.log2 : ℤ) - den.log2 - 53) (-1074) with ⟨hmax, -⟩ | ⟨hmax, -⟩
    · refine .inr (le_trans (zpow_le_zpow_right₀ htwo ?_) hlow)
      omega
    · exact .inl (hguess.trans hmax)
  · refine ⟨by omega, hhigh.trans_le (zpow_le_zpow_right₀ htwo (by omega)), .inr ?_⟩
    rw [add_assoc]
    exact not_lt.mp h

/-- The bits of the double, by the grid around the number. -/
theorem nearestMagnitude_eq {num den : ℕ} (hnum : 0 < num) (hden : 0 < den) {g : ℤ}
    (h : Grid (num / den) g) : nearestMagnitude num den = (g + 1074).toNat * Nat.pow 2 52 +
      if g < 0 then roundHalfEven (num * Nat.pow 2 (-g).toNat) den
      else roundHalfEven num (den * Nat.pow 2 g.toNat) := by
  rw [nearestMagnitude, (grid_gridExponent hnum hden).unique h]

/-- Only the ratio matters. -/
theorem nearestMagnitude_mul_left {k num den : ℕ} (hk : 0 < k) (hnum : 0 < num) (hden : 0 < den) :
    nearestMagnitude (k * num) (k * den) = nearestMagnitude num den := by
  have hgrid := grid_gridExponent hnum hden
  have hgrid' : Grid ((k * num : ℕ) / (k * den : ℕ)) (gridExponent num den) := by
    have hk' : (k : ℚ) ≠ 0 := by exact_mod_cast hk.ne'
    push_cast
    rwa [mul_div_mul_left _ _ hk']
  rw [nearestMagnitude_eq hnum hden hgrid,
    nearestMagnitude_eq (Nat.mul_pos hk hnum) (Nat.mul_pos hk hden) hgrid']
  simp only [Nat.mul_assoc, roundHalfEven_mul_left hk]

theorem digitCount_mul_ten {n : ℕ} (hn : 0 < n) : digitCount (n * 10) = digitCount n + 1 := by
  have hdigits := Nat.toDigits_append_toDigits (b := 10) (d := 0) (by decide) hn (by decide)
  rw [Nat.add_zero, Nat.mul_comm] at hdigits
  simp [digitCount, ← hdigits]

/-- A zero at the end of the digits can be moved into the scale. -/
theorem ofDecimal_mul_ten (negative : Bool) {n : ℕ} (hn : 0 < n) (scale : ℤ) :
    ofDecimal negative ⟨n * 10, scale⟩ = ofDecimal negative ⟨n, scale + 1⟩ := by
  have hleading : scale + (digitCount (n * 10) : ℤ) = scale + 1 + digitCount n := by
    rw [digitCount_mul_ten hn]
    push_cast
    ring
  have hmagnitude : (if scale < 0 then nearestMagnitude (n * 10) (Nat.pow 10 (-scale).toNat)
      else nearestMagnitude (n * 10 * Nat.pow 10 scale.toNat) 1) =
        if scale + 1 < 0 then nearestMagnitude n (Nat.pow 10 (-(scale + 1)).toNat)
        else nearestMagnitude (n * Nat.pow 10 (scale + 1).toNat) 1 := by
    rcases lt_trichotomy scale (-1) with h | rfl | h
    · obtain ⟨k, hk⟩ : ∃ k : ℕ, -(scale + 1) = k := ⟨(-(scale + 1)).toNat, by omega⟩
      rw [if_pos (by omega), if_pos (by omega), hk, show -scale = (k + 1 : ℕ) by push_cast; omega]
      simp only [Int.toNat_natCast, Nat.pow_eq]
      rw [Nat.pow_succ', Nat.mul_comm n]
      exact nearestMagnitude_mul_left (by decide) hn (by positivity)
    · simpa [Nat.mul_comm] using
        @nearestMagnitude_mul_left 10 n 1 (by decide) hn (by decide)
    · obtain ⟨k, rfl⟩ : ∃ k : ℕ, scale = k := ⟨scale.toNat, by omega⟩
      rw [if_neg (by omega), if_neg (by omega), show ((k : ℤ) + 1) = (k + 1 : ℕ) by simp]
      simp only [Int.toNat_natCast, Nat.pow_eq]
      rw [Nat.pow_succ', Nat.mul_assoc]
  simp only [ofDecimal, hleading, hmagnitude, hn.ne', (Nat.mul_pos hn (by decide : 0 < 10)).ne',
    false_or]

theorem ofDecimal_mul_pow (negative : Bool) {n : ℕ} (hn : 0 < n) (scale : ℤ) (k : ℕ) :
    ofDecimal negative ⟨n * 10 ^ k, scale⟩ = ofDecimal negative ⟨n, scale + k⟩ := by
  induction k generalizing scale with
  | zero => simp
  | succ k ih =>
      rw [Nat.pow_succ, ← Nat.mul_assoc, ofDecimal_mul_ten negative (by positivity), ih]
      push_cast
      congr 2
      ring

theorem ofDecimal_stripZeros (negative : Bool) (fuel : ℕ) (d : Decimal) :
    ofDecimal negative (d.stripZeros fuel) = ofDecimal negative d := by
  induction fuel generalizing d with
  | zero => rfl
  | succ fuel ih =>
      rw [Decimal.stripZeros]
      split_ifs with h
      · obtain ⟨n, scale⟩ := d
        obtain ⟨k, rfl⟩ : 10 ∣ n := Nat.dvd_of_mod_eq_zero h.2
        have hk : 0 < k := Nat.pos_of_ne_zero fun hk => h.1 (by simp [hk])
        rw [ih, Nat.mul_div_cancel_left k (by decide), Nat.mul_comm, ofDecimal_mul_ten negative hk]
      · rfl

/-! Every double is a decimal of finitely many digits. Reading that decimal gives the double back,
as it lies on the grid already. -/

section Exact

variable {x : Binary64}

theorem toNat_bits (x : Binary64) : x.bits.toNat =
    x.exponentField * 2 ^ 52 + x.fractionField + if x.isNegative then 2 ^ 63 else 0 := by
  have hlt : x.bits.toNat < 2 ^ 64 := x.bits.toNat_lt
  simp only [exponentField, fractionField, isNegative, Nat.pow_eq, decide_eq_true_eq]
  split_ifs <;> omega

theorem fractionField_lt (x : Binary64) : x.fractionField < 2 ^ 52 :=
  Nat.mod_lt _ (Nat.pow_pos two_pos)

theorem significand_lt (x : Binary64) : x.significand < 2 ^ 53 := by
  have := x.fractionField_lt
  simp only [significand, Nat.pow_eq]
  split_ifs <;> omega

theorem significand_pos (h : x.isZero = false) : 0 < x.significand := by
  simp only [isZero, decide_eq_false_iff_not] at h
  simp only [significand, Nat.pow_eq]
  split_ifs <;> omega

theorem exponentField_lt (h : x.isFinite = true) : x.exponentField < 2047 := by
  have hlt : x.exponentField < 2 ^ 11 := Nat.mod_lt _ (Nat.pow_pos two_pos)
  simp only [isFinite, decide_eq_true_eq] at h
  omega

/-- A finite double is a number on its own grid. -/
theorem grid_significand (x : Binary64) : Grid (x.significand * 2 ^ x.exponent) x.exponent := by
  have hpow : (0 : ℚ) < 2 ^ x.exponent := by positivity
  refine ⟨by unfold exponent; omega, ?_, ?_⟩
  · rw [zpow_add₀ two_ne_zero, mul_comm]
    gcongr
    exact_mod_cast x.significand_lt
  · by_cases hfield : x.exponentField ≤ 1
    · left
      unfold exponent
      omega
    · right
      rw [zpow_add₀ two_ne_zero, mul_comm]
      gcongr
      have : 2 ^ 52 ≤ x.significand := by
        simp only [significand, Nat.pow_eq]
        split_ifs <;> omega
      exact_mod_cast this

/-- What the fields of a finite double say about its bits. -/
theorem magnitude_eq (h : x.isFinite = true) : ofMagnitude x.isNegative
    (min ((x.exponent + 1074).toNat * Nat.pow 2 52 + x.significand) infiniteMagnitude) = x := by
  have hfield := exponentField_lt h
  have hfraction := x.fractionField_lt
  have hmagnitude : (x.exponent + 1074).toNat * Nat.pow 2 52 + x.significand =
      x.exponentField * 2 ^ 52 + x.fractionField := by
    simp only [exponent, significand, Nat.pow_eq]
    split_ifs <;> omega
  have hmin : x.exponentField * 2 ^ 52 + x.fractionField ≤ infiniteMagnitude := by
    simp only [infiniteMagnitude, Nat.pow_eq]
    omega
  rw [hmagnitude, Nat.min_eq_left hmin]
  have hbits : x.exponentField * 2 ^ 52 + x.fractionField +
      (if x.isNegative = true then Nat.pow 2 63 else 0) = x.bits.toNat := x.toNat_bits.symm
  rw [ofMagnitude, hbits, UInt64.ofNat_toNat]

theorem exactDecimal_of_neg {p : ℕ} (hp : x.exponent = -p) (hpos : 0 < p) :
    x.exactDecimal = ⟨x.significand * 5 ^ p, -p⟩ := by
  have hneg : x.exponent < 0 := by omega
  simp [exactDecimal, hp, hpos]

theorem exactDecimal_of_nonneg {p : ℕ} (hp : x.exponent = p) :
    x.exactDecimal = ⟨x.significand * 2 ^ p, 0⟩ := by
  simp [exactDecimal, hp]

/-- The exponent is below zero or not. -/
theorem exponent_cases (x : Binary64) :
    (∃ p : ℕ, x.exponent = -p ∧ 0 < p ∧ p ≤ 1074) ∨ ∃ p : ℕ, x.exponent = p := by
  rcases lt_or_ge x.exponent 0 with h | h
  · exact .inl ⟨(-x.exponent).toNat, by omega, by omega, by unfold exponent; omega⟩
  · exact .inr ⟨x.exponent.toNat, by omega⟩

theorem digitCount_le {n k : ℕ} (hk : 0 < k) : digitCount n ≤ k ↔ n < 10 ^ k :=
  Nat.length_toDigits_le_iff (by decide) hk

theorem two_pow_lt_ten_pow {k n : ℕ} (hn : n ≠ 0) (hk : k ≤ 3 * n) : 2 ^ k < 10 ^ n := calc
  2 ^ k ≤ 2 ^ (3 * n) := Nat.pow_le_pow_right two_pos hk
  _ = (2 ^ 3) ^ n := Nat.pow_mul 2 3 n
  _ < 10 ^ n := Nat.pow_lt_pow_left (by decide) hn

/-- The exact value is neither too small nor too large to be looked at closely. -/
theorem leading_exactDecimal (h : x.isFinite = true) (hzero : x.isZero = false) :
    -400 ≤ x.exactDecimal.scale + digitCount x.exactDecimal.digits ∧
      x.exactDecimal.scale + digitCount x.exactDecimal.digits ≤ 400 := by
  have hpos := significand_pos hzero
  have hlt := x.significand_lt
  rcases x.exponent_cases with ⟨p, hp, hp₀, hp₁⟩ | ⟨p, hp⟩
  · rw [exactDecimal_of_neg hp hp₀]
    dsimp only
    constructor
    · by_contra hlow
      have hcount : digitCount (x.significand * 5 ^ p) ≤ p - 400 := by omega
      rw [digitCount_le (by omega)] at hcount
      have hsmall : 10 ^ 400 * 5 ^ p < 2 ^ p * 5 ^ p := calc
        10 ^ 400 * 5 ^ p ≤ 10 ^ 400 * (x.significand * 5 ^ p) := by
          gcongr
          exact Nat.le_mul_of_pos_left _ hpos
        _ < 10 ^ 400 * 10 ^ (p - 400) := by gcongr
        _ = 10 ^ p := by rw [← pow_add, show 400 + (p - 400) = p by omega]
        _ = 2 ^ p * 5 ^ p := Nat.mul_pow 2 5 p
      exact absurd (Nat.lt_of_mul_lt_mul_right hsmall)
        (two_pow_lt_ten_pow (by decide) (by omega)).not_gt
    · have hcount : digitCount (x.significand * 5 ^ p) ≤ p + 400 := by
        rw [digitCount_le (by omega)]
        calc x.significand * 5 ^ p < 2 ^ 53 * 5 ^ p := by gcongr
          _ ≤ 10 ^ 400 * 10 ^ p := Nat.mul_le_mul
            (two_pow_lt_ten_pow (by decide) (by decide)).le (Nat.pow_le_pow_left (by decide) p)
          _ = 10 ^ (p + 400) := by rw [← pow_add, add_comm]
      omega
  · rw [exactDecimal_of_nonneg hp]
    have hfield := exponentField_lt h
    have hp₁ : p ≤ 971 := by
      unfold exponent at hp
      omega
    have hcount : digitCount (x.significand * 2 ^ p) ≤ 400 := by
      rw [digitCount_le (by decide)]
      calc x.significand * 2 ^ p < 2 ^ 53 * 2 ^ p := by gcongr
        _ = 2 ^ (53 + p) := (pow_add 2 53 p).symm
        _ < 10 ^ 400 := two_pow_lt_ten_pow (by decide) (by omega)
    dsimp only
    omega

/-- The nearest magnitude to the exact value is the value itself. -/
theorem nearestMagnitude_exactDecimal (hzero : x.isZero = false) :
    (if x.exactDecimal.scale < 0 then
      nearestMagnitude x.exactDecimal.digits (Nat.pow 10 (-x.exactDecimal.scale).toNat)
      else nearestMagnitude (x.exactDecimal.digits * Nat.pow 10 x.exactDecimal.scale.toNat) 1) =
        (x.exponent + 1074).toNat * Nat.pow 2 52 + x.significand := by
  have hs := significand_pos hzero
  have hgrid := x.grid_significand
  rcases x.exponent_cases with ⟨p, hp, hp₀, -⟩ | ⟨p, hp⟩
  · rw [exactDecimal_of_neg hp hp₀]
    have hgrid : Grid (x.significand / (2 ^ p : ℕ)) x.exponent := by
      rw [hp, zpow_neg, zpow_natCast, ← div_eq_mul_inv] at hgrid
      rw [hp]
      exact_mod_cast hgrid
    have hten : Nat.pow 10 p = 5 ^ p * 2 ^ p := Nat.mul_pow 5 2 p
    rw [if_pos (by simp [hp₀]), neg_neg, Int.toNat_natCast, hten, mul_comm x.significand,
      nearestMagnitude_mul_left (by positivity) hs (by positivity),
      nearestMagnitude_eq hs (by positivity) hgrid, if_pos (by omega), hp, neg_neg,
      Int.toNat_natCast]
    simp only [Nat.pow_eq]
    rw [roundHalfEven_exact (by positivity)]
  · rw [exactDecimal_of_nonneg hp]
    have hgrid : Grid ((x.significand * 2 ^ p : ℕ) / (1 : ℕ)) x.exponent := by
      rw [hp, zpow_natCast] at hgrid
      rw [hp]
      push_cast
      simpa using hgrid
    have hnum : 0 < x.significand * 2 ^ p := by positivity
    rw [if_neg (by simp), Int.toNat_zero, Nat.pow_eq, pow_zero, mul_one,
      nearestMagnitude_eq hnum one_pos hgrid, if_neg (by omega), hp, Int.toNat_natCast, one_mul]
    simp only [Nat.pow_eq]
    rw [roundHalfEven_exact (by positivity)]

theorem ofDecimal_exactDecimal (h : x.isFinite = true) (hzero : x.isZero = false) :
    ofDecimal x.isNegative x.exactDecimal = x := by
  obtain ⟨hlow, hhigh⟩ := leading_exactDecimal h hzero
  have hdigits : x.exactDecimal.digits ≠ 0 := by
    have := significand_pos hzero
    rcases x.exponent_cases with ⟨p, hp, hp₀, -⟩ | ⟨p, hp⟩
    · rw [exactDecimal_of_neg hp hp₀]
      positivity
    · rw [exactDecimal_of_nonneg hp]
      positivity
  unfold ofDecimal
  rw [if_neg (by omega), if_neg (by omega)]
  dsimp only
  rw [nearestMagnitude_exactDecimal hzero]
  exact magnitude_eq h

end Exact

theorem ofDecimal_firstCut {x : Binary64} (h : x.isFinite = true) (hzero : x.isZero = false)
    (dropped : ℕ) : ofDecimal x.isNegative (x.firstCut x.exactDecimal dropped) = x := by
  induction dropped with
  | zero => exact ofDecimal_exactDecimal h hzero
  | succ dropped ih =>
      rw [firstCut]
      cases hcut : x.cutAt x.exactDecimal dropped with
      | none => exact ih
      | some d =>
          have hreads : x.readsBack d = true := by
            simp only [cutAt] at hcut
            split at hcut
            · split_ifs at hcut <;> (obtain rfl := Option.some.inj hcut; assumption)
            · obtain rfl := Option.some.inj hcut
              assumption
            · obtain rfl := Option.some.inj hcut
              assumption
            · cases hcut
          exact of_decide_eq_true hreads

theorem ofDecimal_shortest {x : Binary64} (h : x.isFinite = true) (hzero : x.isZero = false) :
    ofDecimal x.isNegative x.shortest = x := by
  rw [shortest, ofDecimal_stripZeros]
  exact ofDecimal_firstCut h hzero _

end Binary64

end Emitter.Number

namespace Emitter.Json.Numeral

open Number

/-- The number that a finite double is written as reads back as the double. -/
theorem toBinary64_ofBinary64 {x : Binary64} (h : x.isFinite = true) :
    (ofBinary64 x).toBinary64 = x := by
  cases hzero : x.isZero with
  | true =>
      have hz : Binary64.zero x.isNegative = x := by
        have hfields : x.exponentField = 0 ∧ x.fractionField = 0 := by
          simpa [Binary64.isZero] using hzero
        have hbits := x.toNat_bits
        rw [hfields.1, hfields.2, Nat.zero_mul, Nat.add_zero] at hbits
        rw [Binary64.zero, Binary64.ofMagnitude, Nat.pow_eq, ← hbits, UInt64.ofNat_toNat]
      simpa [ofBinary64, hzero, toBinary64, Binary64.ofDecimal] using hz
  | false =>
      have hshortest := Binary64.ofDecimal_shortest h hzero
      have hdigits : 0 < x.shortest.digits := by
        by_contra hdigits
        have hzero' : Binary64.zero x.isNegative = x := by
          simpa [Binary64.ofDecimal, Nat.eq_zero_of_not_pos hdigits] using hshortest
        rw [← hzero'] at hzero
        cases hnegative : x.isNegative <;> rw [hnegative] at hzero <;>
          exact absurd hzero (by decide)
      rw [ofBinary64, if_neg (by simp [hzero])]
      dsimp only
      split_ifs with hwhole hscale
      · simpa [toBinary64] using hshortest
      · have hplaces : (0 : ℤ) - ((-x.shortest.scale).toNat : ℕ) = x.shortest.scale := by omega
        change Binary64.ofDecimal x.isNegative
          ⟨x.shortest.digits, 0 - ((-x.shortest.scale).toNat : ℕ)⟩ = x
        rw [hplaces]
        exact hshortest
      · have hmoved := Binary64.ofDecimal_mul_pow x.isNegative hdigits (-1)
          (x.shortest.scale.toNat + 1)
        have hscale : (-1 : ℤ) + (x.shortest.scale.toNat + 1 : ℕ) = x.shortest.scale := by
          push_cast
          omega
        rw [hscale] at hmoved
        simpa [toBinary64] using hmoved.trans hshortest

end Emitter.Json.Numeral
