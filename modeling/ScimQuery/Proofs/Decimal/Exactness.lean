/-
ScimQuery.Proofs.Decimal.Exactness — when the decimal of a number is that number.

A decimal that rounds is exact just if the number can be held at all
(`Rounds.eq_iff_holds`): a number of fewer places lies on a unit, so that half a unit
is too far, and one of more places would have been too large for them. An exponent
changes nothing about it. So the decimal of a number is exact if and only if the number
in front of the exponent can be held, and another one, as
`0.00000000000000000000000000001`, is rounded and does not fail. What fails for its
size are the numbers from half a unit below `2 ^ 96` on.
-/
import ScimQuery.Proofs.Decimal.Accuracy

namespace ScimQuery.Decimal

open Number

variable {m s : ℕ} {q : ℚ} {n : Numeral}

/-! ## 1. Numbers that can be held -/

/-- Some decimal stands for the number. -/
def Holds (q : ℚ) : Prop :=
  ∃ d : Decimal, d.mantissa < mantissaBound ∧ d.scale ≤ maxScale ∧ d.value = q

theorem abs_value (d : Decimal) : |d.value| = d.magnitude := by
  have hpos : 0 ≤ d.magnitude := by
    rw [magnitude]
    positivity
  rw [value]
  split
  · rw [abs_neg, abs_of_nonneg hpos]
  · rw [abs_of_nonneg hpos]

/-- A number without a sign is held by a mantissa and a scale. -/
theorem holds_iff (hq : 0 ≤ q) :
    Holds q ↔ ∃ m s : ℕ, m < mantissaBound ∧ s ≤ maxScale ∧ m = q * 10 ^ s := by
  constructor
  · rintro ⟨d, hm, hs, rfl⟩
    refine ⟨d.mantissa, d.scale, hm, hs, ?_⟩
    rw [← abs_of_nonneg hq, abs_value, magnitude]
    field_simp
  · rintro ⟨m, s, hm, hs, heq⟩
    refine ⟨⟨false, m, s⟩, hm, hs, ?_⟩
    simp only [value, magnitude, heq, Bool.false_eq_true, if_false]
    field_simp

/-- Two integers within half a unit are one. -/
theorem eq_of_abs_sub_le_half {a b : ℕ} (h : |(a : ℚ) - b| ≤ 1 / 2) : a = b := by
  obtain ⟨hlow, hhigh⟩ := abs_le.mp h
  have hle : (a : ℚ) < b + 1 := by linarith
  have hge : (b : ℚ) < a + 1 := by linarith
  have hle' : a < b + 1 := by exact_mod_cast hle
  have hge' : b < a + 1 := by exact_mod_cast hge
  omega

/-- **Rounding is exact just for the numbers that can be held.** -/
theorem Rounds.eq_iff_holds (hq : 0 ≤ q) (h : Rounds m s q) : m = q * 10 ^ s ↔ Holds q := by
  rw [holds_iff hq]
  constructor
  · exact fun heq => ⟨m, s, h.mantissa_lt, h.scale_le, heq⟩
  · rintro ⟨m₀, s₀, hm₀, hs₀, heq₀⟩
    rcases Nat.lt_or_ge s s₀ with hlt | hge
    · -- There are places left, and not for the reason that one more is too many.
      rcases h.full with heq | hlast | hfull
      · exact heq
      · exact absurd hlast (hlt.trans_le hs₀).ne
      · exfalso
        have hunits : q * 10 ^ s * 10 ≤ q * 10 ^ s₀ := by
          rw [mul_assoc, ← pow_succ]
          exact mul_le_mul_of_nonneg_left (pow_le_pow_right₀ (by norm_num) hlt) hq
        have hbound := cast_le_of_lt hm₀
        linarith
    · have hunits : q * 10 ^ s = (m₀ * 10 ^ (s - s₀) : ℕ) := by
        push_cast
        rw [heq₀, mul_assoc, ← pow_add, Nat.add_sub_cancel' hge]
      have hnear := h.near
      rw [hunits] at hnear ⊢
      exact_mod_cast eq_of_abs_sub_le_half hnear

/-! ## 2. Numbers that are too large -/

theorem significand_nonneg : 0 ≤ n.significand := by
  rw [Numeral.significand]
  positivity

theorem magnitude_nonneg : 0 ≤ n.magnitude :=
  mul_nonneg significand_nonneg (zpow_nonneg (by norm_num) _)

theorem abs_numeral_value (n : Numeral) : |n.value| = n.magnitude := by
  rw [Numeral.value]
  split
  · rw [abs_neg, abs_of_nonneg magnitude_nonneg]
  · rw [abs_of_nonneg magnitude_nonneg]

/-- What is approximated is less than half a unit below the bound. -/
theorem Approximates.lt (hq : 0 ≤ q) (h : Approximates m s q) : q < mantissaBound - 1 / 2 := by
  have hunits : q * 1 ≤ q * 10 ^ s :=
    mul_le_mul_of_nonneg_left (one_le_pow₀ (by norm_num)) hq
  linarith [h.below]

/-! ## 3. Exact decimals -/

variable {d : Decimal} {text : String}

/-- A number that has a decimal is not too large. -/
theorem abs_value_lt_of_ofText (htext : n.text = text.toList) (h : ofText text = .ok d) :
    |n.value| < mantissaBound - 1 / 2 := by
  obtain ⟨base, -, hmoves, -⟩ := exists_moves_of_ofText htext h
  rw [abs_numeral_value]
  exact hmoves.approximates.lt magnitude_nonneg

/-- Without an exponent a number that is not too large has a decimal. -/
theorem exists_ofText (htext : n.text = text.toList) (hexponent : n.exponent = none)
    (h : |n.value| < mantissaBound - 1 / 2) : ∃ d, ofText text = .ok d := by
  have hmagnitude : n.magnitude = n.significand := by
    rw [Numeral.magnitude, Numeral.power, hexponent, zpow_zero, mul_one]
  rw [abs_numeral_value, hmagnitude] at h
  obtain ⟨d, hd⟩ := exists_ofPlain h
  refine ⟨d, ?_⟩
  rw [ofText_eq htext, hexponent, hd]
  rfl

/-- What is held in front of the exponent is exact behind it. -/
theorem value_eq_iff_holds (htext : n.text = text.toList) (h : ofText text = .ok d) :
    d.value = n.value ↔ Holds n.significand := by
  obtain ⟨base, hrounds, hmoves, hnegative⟩ := exists_moves_of_ofText htext h
  have hunit : (10 : ℚ) ^ (-(d.scale : ℤ)) ≠ 0 := zpow_ne_zero _ (by norm_num)
  calc d.value = n.value
    _ ↔ |d.magnitude - n.magnitude| = 0 := by
      rw [← abs_value_sub hnegative, abs_eq_zero, sub_eq_zero]
    _ ↔ d.mantissa = n.magnitude * 10 ^ d.scale := by
      rw [magnitude_sub, mul_eq_zero, or_iff_left hunit, abs_eq_zero, sub_eq_zero]
    _ ↔ base.mantissa = n.significand * 10 ^ base.scale := hmoves.exact_iff
    _ ↔ Holds n.significand := hrounds.eq_iff_holds significand_nonneg

/-- **The decimal of a number is exact if and only if the number in front of the
exponent can be held.** A number that has a decimal is not too large, and without an
exponent that is all it takes. -/
theorem ofText_exact_iff (text : String) :
    (IsNumber text.toList ↔ ∃ n : Numeral, n.text = text.toList) ∧
    ∀ n : Numeral, n.text = text.toList →
      (∀ d, ofText text = .ok d →
        (d.value = n.value ↔ Holds n.significand) ∧ |n.value| < mantissaBound - 1 / 2) ∧
      (n.exponent = none →
        ((∃ d, ofText text = .ok d) ↔ |n.value| < mantissaBound - 1 / 2)) := by
  refine ⟨isNumber_iff_exists_numeral, fun n htext => ⟨fun d hd => ?_, fun hexponent => ?_⟩⟩
  · exact ⟨value_eq_iff_holds htext hd, abs_value_lt_of_ofText htext hd⟩
  · constructor
    · rintro ⟨d, hd⟩
      exact abs_value_lt_of_ofText htext hd
    · exact exists_ofText htext hexponent

/-- `2.50e-1` is exact, and half a unit below the bound is too large. -/
theorem ofText_exact_iff_bounds :
    (∃ n : Numeral, n.text = "2.50e-1".toList ∧ ofText "2.50e-1" = .ok ⟨false, 250, 3⟩ ∧
      value ⟨false, 250, 3⟩ = n.value) ∧
    ¬ ∃ d, ofText "79228162514264337593543950335.5" = .ok d := by
  obtain ⟨n, htext, hdigits, hplaces⟩ : ∃ n : Numeral, n.text = "2.50e-1".toList ∧
      digitsValue n.digits = 250 ∧ n.fraction.length = 2 :=
    ⟨⟨false, ['2'], ['5', '0'], some ⟨'e', ['-'], ['1'], by decide, .inr (.inr rfl),
      ⟨by decide, by simp⟩⟩, .inr ⟨⟨by decide, by simp⟩, by decide⟩, by simp⟩,
      by decide, by decide, by decide⟩
  have hholds : Holds n.significand :=
    ⟨⟨false, 250, 2⟩, by decide, by decide,
      by rw [Numeral.significand, hdigits, hplaces]; rfl⟩
  have hread : ofText "2.50e-1" = .ok ⟨false, 250, 3⟩ := by decide +kernel
  obtain ⟨large, hlarge, hexponent, hlargeDigits, hlargePlaces⟩ :
      ∃ n : Numeral, n.text = "79228162514264337593543950335.5".toList ∧ n.exponent = none ∧
        digitsValue n.digits = mantissaBound * 10 - 5 ∧ n.fraction.length = 1 :=
    ⟨⟨false, "79228162514264337593543950335".toList, ['5'], none,
      .inr ⟨⟨by decide, List.all_eq_true.mp (by decide)⟩, by decide⟩, by simp⟩,
      by decide, rfl, by decide, rfl⟩
  have hsize : |large.value| = mantissaBound - 1 / 2 := by
    rw [abs_numeral_value, Numeral.magnitude, Numeral.power, hexponent, Numeral.significand,
      hlargeDigits, hlargePlaces, cast_mantissaBound, mantissaBound_eq]
    norm_num
  refine ⟨⟨n, htext, hread, (((ofText_exact_iff _).2 n htext).1 _ hread).1.mpr hholds⟩, ?_⟩
  rw [((ofText_exact_iff _).2 large hlarge).2 hexponent, hsize]
  exact lt_irrefl _

/-- A digit behind the last place is dropped without an error: the number has 29
places and no decimal, and what is read is zero. -/
theorem ofText_behindLastPlace :
    ∃ n : Numeral, n.text = "0.00000000000000000000000000004".toList ∧
      ¬ Holds n.value ∧
      ofText "0.00000000000000000000000000004" = .ok ⟨false, 0, 28⟩ ∧
      value ⟨false, 0, 28⟩ ≠ n.value := by
  obtain ⟨n, htext, hsign, hexponent, hdigits, hplaces⟩ :
      ∃ n : Numeral, n.text = "0.00000000000000000000000000004".toList ∧ n.negative = false ∧
        n.exponent = none ∧ digitsValue n.digits = 4 ∧ n.fraction.length = 29 :=
    ⟨⟨false, ['0'], "00000000000000000000000000004".toList, none, .inl rfl,
      List.all_eq_true.mp (by decide)⟩, by decide, rfl, rfl, by decide, rfl⟩
  have hvalue : n.value = 4 / 10 ^ 29 := by
    rw [Numeral.value, hsign, Numeral.magnitude, Numeral.power, hexponent, Numeral.significand,
      hdigits, hplaces]
    norm_num
  refine ⟨n, htext, ?_, by decide +kernel, ?_⟩
  · rw [hvalue, holds_iff (by norm_num)]
    rintro ⟨m, s, -, hs, heq⟩
    -- In units of at most 28 places the number is between zero and one.
    have hpow : (10 : ℚ) ^ s ≤ 10 ^ 28 := pow_le_pow_right₀ (by norm_num) hs
    have hlow : (0 : ℚ) < m := by
      rw [heq]
      positivity
    have hhigh : (m : ℚ) < 1 := by
      rw [heq]
      linarith
    have hlow' : 0 < m := by exact_mod_cast hlow
    have hhigh' : m < 1 := by exact_mod_cast hhigh
    omega
  · rw [hvalue]
    norm_num [value, magnitude]

end ScimQuery.Decimal
