/-
ScimQuery.Proofs.Decimal.Accuracy — how close the decimal of a number is.

An exponent moves the point of a number that has been rounded already. Moving it
within the places of the decimal leaves the mantissa alone, so an error of half a unit
stays half a unit (`Approximates.move`). Beyond them the mantissa is multiplied, and
with it the error; but then there were places left, and a number with places left has
not been rounded (`Rounds.eq_of_lt`). So every decimal is within half a unit of its
last place.
-/
import ScimQuery.Proofs.Decimal.Rounding

namespace ScimQuery.Decimal

open Number

variable {m s : ℕ} {q : ℚ} {n : Numeral} {d base : Decimal} {text : String}

/-! ## 1. Values -/

/-- The number that a decimal stands for, without its sign. -/
def magnitude (d : Decimal) : ℚ :=
  d.mantissa / 10 ^ d.scale

/-- The rational number that a decimal stands for. -/
def value (d : Decimal) : ℚ :=
  if d.negative then -d.magnitude else d.magnitude

/-- A decimal with the sign of a number is as far from it as without signs. -/
theorem abs_value_sub (h : d.negative = (n.negative && d.mantissa != 0)) :
    |d.value - n.value| = |d.magnitude - n.magnitude| := by
  have hvalue : d.value = if n.negative then -d.magnitude else d.magnitude := by
    rw [value, h]
    by_cases hzero : d.mantissa = 0
    · simp [magnitude, hzero]
    · simp [hzero]
  rw [hvalue, Numeral.value]
  split
  · rw [neg_sub_neg, abs_sub_comm]
  · rfl

/-- The distance to a number in units of the last place. -/
theorem magnitude_sub (d : Decimal) (q : ℚ) :
    |d.magnitude - q| = |(d.mantissa : ℚ) - q * 10 ^ d.scale| * 10 ^ (-(d.scale : ℤ)) := by
  have hpos : (0 : ℚ) < 10 ^ d.scale := by positivity
  rw [zpow_neg, zpow_natCast, ← abs_of_pos (inv_pos.mpr hpos), ← abs_mul, magnitude]
  congr 1
  field_simp

/-! ## 2. Moving the point -/

/-- The same mantissa for the same number of units. -/
theorem Approximates.move {t : ℕ} {r : ℚ} (h : Approximates m s q) (ht : t ≤ maxScale)
    (hunits : r * 10 ^ t = q * 10 ^ s) : Approximates m t r where
  mantissa_lt := h.mantissa_lt
  scale_le := ht
  near := by rw [hunits]; exact h.near
  below := by rw [hunits]; exact h.below

/-- A mantissa with room for another digit, and places left, has not been rounded. -/
theorem Rounds.eq_of_lt (h : Rounds m s q) (hm : m * 10 < mantissaBound) (hs : s < maxScale) :
    m = q * 10 ^ s := by
  rcases h.full with heq | hlast | hfull
  · exact heq
  · exact absurd hlast hs.ne
  · -- A mantissa so close to a tenth of the bound is no tenth below it.
    exfalso
    have hnear := (abs_le.mp h.near).1
    have hroom : m ≤ 7922816251426433759354395033 := by
      rw [mantissaBound_eq] at hm
      omega
    have hcast : (m : ℚ) ≤ 7922816251426433759354395033 := by exact_mod_cast hroom
    rw [cast_mantissaBound] at hfull
    linarith

/-- A negative exponent adds to the scale. -/
theorem eq_of_scaleDown {k : ℕ} (h : base.scaleDown k = .ok d) :
    d = { base with scale := base.scale + k } ∧ d.scale ≤ maxScale := by
  rw [scaleDown] at h
  split at h
  · cases h
  · split at h
    · cases h
    · rename_i hscale
      cases h
      exact ⟨rfl, Nat.le_of_not_lt hscale⟩

/-- A positive one is taken off the scale, or multiplies the mantissa. -/
theorem eq_of_scaleUp {k : ℕ} (h : base.scaleUp k = .ok d) :
    (k ≤ base.scale ∧ d = { base with scale := base.scale - k }) ∨
      (base.scale < k ∧ k ≤ maxScale ∧ base.mantissa * 10 ^ (k - base.scale) < mantissaBound ∧
        d = { base with mantissa := base.mantissa * 10 ^ (k - base.scale), scale := 0 }) := by
  rw [scaleUp] at h
  split at h
  · rename_i hle
    cases h
    exact .inl ⟨hle, rfl⟩
  · rename_i hlt
    split at h
    · cases h
    · rename_i hmax
      simp only at h
      split at h
      · rename_i hfits
        cases h
        exact .inr ⟨Nat.lt_of_not_le hlt, Nat.le_of_not_lt hmax, hfits, rfl⟩
      · cases h

/-- What moving the point by `power` makes of a decimal for `q`: it stays as close, and
exact if it was. -/
structure Moves (base d : Decimal) (q r : ℚ) : Prop where
  negative : d.negative = base.negative
  zero_iff : d.mantissa = 0 ↔ base.mantissa = 0
  approximates : Approximates d.mantissa d.scale r
  exact_iff : d.mantissa = r * 10 ^ d.scale ↔ (base.mantissa : ℚ) = q * 10 ^ base.scale

/-- The point moves within the places of the decimal. -/
theorem Moves.of_scale {t : ℕ} {r : ℚ} (h : Rounds base.mantissa base.scale q)
    (ht : t ≤ maxScale) (hunits : r * 10 ^ t = q * 10 ^ base.scale) :
    Moves base { base with scale := t } q r where
  negative := rfl
  zero_iff := .rfl
  approximates := h.toApproximates.move ht hunits
  exact_iff := by rw [hunits]

/-- The point moves beyond them. -/
theorem Moves.of_mantissa {k : ℕ} (h : Rounds base.mantissa base.scale q)
    (hlt : base.scale < k) (hk : k ≤ maxScale)
    (hfits : base.mantissa * 10 ^ (k - base.scale) < mantissaBound) :
    Moves base { base with mantissa := base.mantissa * 10 ^ (k - base.scale), scale := 0 }
      q (q * 10 ^ k) := by
  have hten : base.mantissa * 10 ≤ base.mantissa * 10 ^ (k - base.scale) :=
    Nat.mul_le_mul_left _ (Nat.le_self_pow (Nat.sub_ne_zero_of_lt hlt) 10)
  have hexact : (base.mantissa : ℚ) = q * 10 ^ base.scale :=
    h.eq_of_lt (hten.trans_lt hfits) (hlt.trans_le hk)
  have hmantissa : ((base.mantissa * 10 ^ (k - base.scale) : ℕ) : ℚ) = q * 10 ^ k * 10 ^ 0 := by
    push_cast
    rw [hexact, mul_assoc, ← pow_add, Nat.add_sub_cancel' hlt.le, pow_zero, mul_one]
  exact
    { negative := rfl
      zero_iff := by simp
      approximates := (Rounds.of_eq hfits (Nat.zero_le _) hmantissa).toApproximates
      exact_iff := ⟨fun _ => hexact, fun _ => hmantissa⟩ }

/-- **An exponent keeps a decimal as close as it was.** -/
theorem Moves.of_scaleBy (h : Rounds base.mantissa base.scale n.significand)
    (hscale : scaleBy base n.exponent = .ok d) : Moves base d n.significand n.magnitude := by
  rw [Numeral.magnitude, Numeral.power]
  cases hexponent : n.exponent with
  | none =>
    rw [hexponent] at hscale
    cases hscale
    exact .of_scale h h.scale_le (by rw [zpow_zero, mul_one])
  | some e =>
    rw [hexponent, scaleBy] at hscale
    split at hscale
    · cases hscale
    · simp only
      by_cases hsign : e.sign = ['-']
      · rw [if_pos hsign] at hscale ⊢
        obtain ⟨rfl, hle⟩ := eq_of_scaleDown hscale
        refine .of_scale h hle ?_
        rw [zpow_neg, zpow_natCast, pow_add]
        field_simp
      · rw [if_neg hsign] at hscale ⊢
        rw [zpow_natCast]
        rcases eq_of_scaleUp hscale with ⟨hle, rfl⟩ | ⟨hlt, hmax, hfits, rfl⟩
        · refine .of_scale h ((Nat.sub_le _ _).trans h.scale_le) ?_
          rw [mul_assoc, ← pow_add, Nat.add_sub_cancel' hle]
        · exact .of_mantissa h hlt hmax hfits

/-! ## 3. The decimal of a number -/

/-- The decimal of a number is that of the significand with the point moved. -/
theorem exists_moves_of_ofText (htext : n.text = text.toList) (h : ofText text = .ok d) :
    ∃ base, Rounds base.mantissa base.scale n.significand ∧
      Moves base d n.significand n.magnitude ∧
      d.negative = (n.negative && d.mantissa != 0) := by
  rw [ofText_eq htext] at h
  cases hbase : ofPlain n.significandText with
  | error error =>
    rw [hbase] at h
    cases h
  | ok base =>
    rw [hbase] at h
    obtain ⟨hrounds, hnegative⟩ := Rounds.of_ofPlain hbase
    have hmoves : Moves base d n.significand n.magnitude := .of_scaleBy hrounds h
    refine ⟨base, hrounds, hmoves, ?_⟩
    rw [hmoves.negative, hnegative]
    simp only [bne, beq_eq_decide, hmoves.zero_iff]

/-- **The decimal of a number keeps its digits where they fit, and is always within
half a unit of its last place.** -/
theorem ofText_accurate (text : String) :
    (IsNumber text.toList ↔ ∃ n : Numeral, n.text = text.toList) ∧
    ∀ n : Numeral, n.text = text.toList →
      (n.exponent = none → digitsValue n.digits < 2 ^ 96 → n.fraction.length ≤ 28 →
        ofText text = .ok ⟨n.negative && digitsValue n.digits != 0, digitsValue n.digits,
          n.fraction.length⟩) ∧
      ∀ d, ofText text = .ok d →
        d.mantissa < 2 ^ 96 ∧ d.scale ≤ 28 ∧
        (d.mantissa ≠ 0 → d.negative = n.negative) ∧
        |d.value - n.value| ≤ 1 / 2 * 10 ^ (-(d.scale : ℤ)) := by
  refine ⟨isNumber_iff_exists_numeral, fun n htext => ⟨?_, ?_⟩⟩
  · intro hexponent hdigits hplaces
    rw [ofText_eq htext, hexponent, ofPlain_of_fits hdigits hplaces]
    rfl
  · intro d hd
    obtain ⟨base, -, hmoves, hnegative⟩ := exists_moves_of_ofText htext hd
    refine ⟨hmoves.approximates.mantissa_lt, hmoves.approximates.scale_le, fun hzero => ?_, ?_⟩
    · rw [hnegative, bne_iff_ne.mpr hzero, Bool.and_true]
    · rw [abs_value_sub hnegative, magnitude_sub]
      have hunit : (0 : ℚ) ≤ 10 ^ (-(d.scale : ℤ)) := zpow_nonneg (by norm_num) _
      exact mul_le_mul_of_nonneg_right hmoves.approximates.near hunit

/-- Two places are kept with their zero; 29 are one too many, and the last of them
rounds before the exponent moves the point. -/
theorem ofText_accurate_rounded :
    ofText "1.10" = .ok ⟨false, 110, 2⟩ ∧
    ofText "-0.99999999999999999999999999995e1" = .ok ⟨true, 10 ^ 28, 27⟩ ∧
    ∃ n : Numeral, n.text = "-0.99999999999999999999999999995e1".toList ∧
      n.negative = true ∧ |value ⟨true, 10 ^ 28, 27⟩ - n.value| ≤ 1 / 2 * 10 ^ (-27 : ℤ) := by
  have hrounded : ofText "-0.99999999999999999999999999995e1" = .ok ⟨true, 10 ^ 28, 27⟩ := by
    decide +kernel
  have hnumber : IsNumber "-0.99999999999999999999999999995e1".toList :=
    ⟨['-'], ['0'], ".99999999999999999999999999995".toList, ['e', '1'], .inr rfl, .inl rfl,
      .inr ⟨"99999999999999999999999999995".toList,
        ⟨by decide, List.all_eq_true.mp (by decide)⟩, rfl⟩,
      .inr ⟨'e', [], ['1'], .inl rfl, .inl rfl, ⟨by decide, by simp⟩, rfl⟩, by decide⟩
  obtain ⟨hexact, -⟩ := (ofText_accurate "1.10").2
    ⟨false, ['1'], ['1', '0'], none, .inr ⟨⟨by decide, by simp⟩, by decide⟩, by simp⟩ (by decide)
  obtain ⟨n, htext⟩ := (ofText_accurate _).1.mp hnumber
  obtain ⟨-, -, hsign, hnear⟩ := ((ofText_accurate _).2 n htext).2 _ hrounded
  exact ⟨hexact rfl (by decide) (by decide), hrounded, n, htext, (hsign (by decide)).symm, hnear⟩

end ScimQuery.Decimal
