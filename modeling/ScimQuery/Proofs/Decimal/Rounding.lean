/-
ScimQuery.Proofs.Decimal.Rounding — the number in front of the exponent, rounded.

A mantissa and a scale `Rounds` a number if it is within half a unit of the last
place, and that place is either the last one there is or none is needed. A digit that
is dropped rounds in this sense (`Rounds.of_round`), also when the mantissa is full by
that and gives up a place, and so does the reader of a significand
(`Rounds.of_ofPlain`). It fails only for a number that is too large
(`exists_ofPlain`), and drops no digit without need (`ofPlain_of_fits`).
-/
import Mathlib.Tactic.FieldSimp
import ScimQuery.Proofs.Decimal.Reading

namespace ScimQuery.Decimal

open Number

variable {m s : ℕ} {q : ℚ} {c : Char} {n : Numeral}

/-! ## 1. Rounded numbers -/

/-- `m` over ten to the `s` is a decimal within half a unit of `q`. -/
structure Approximates (m s : ℕ) (q : ℚ) : Prop where
  mantissa_lt : m < mantissaBound
  scale_le : s ≤ maxScale
  near : |(m : ℚ) - q * 10 ^ s| ≤ 1 / 2
  /-- A larger number would need another place in front. -/
  below : q * 10 ^ s < mantissaBound - 1 / 2

/-- `m` over ten to the `s` is the decimal nearest to `q`: one more place would be one
too many, unless it is `q` already. -/
structure Rounds (m s : ℕ) (q : ℚ) : Prop extends Approximates m s q where
  full : m = q * 10 ^ s ∨ s = maxScale ∨ (mantissaBound : ℚ) - 1 / 2 ≤ q * 10 ^ s * 10

/-- The bound of the mantissas among the rational numbers. -/
theorem cast_mantissaBound : (mantissaBound : ℚ) = 79228162514264337593543950336 := by
  rw [mantissaBound_eq]
  norm_num

/-- What holds of the last mantissa in natural numbers holds of it in rational ones. -/
theorem cast_le_of_lt (hm : m < mantissaBound) : (m : ℚ) + 1 ≤ mantissaBound := by
  exact_mod_cast hm

/-- A decimal rounds itself. -/
theorem Rounds.of_eq (hm : m < mantissaBound) (hs : s ≤ maxScale) (h : m = q * 10 ^ s) :
    Rounds m s q where
  mantissa_lt := hm
  scale_le := hs
  near := by rw [h, sub_self, abs_zero]; norm_num
  below := by linarith [cast_le_of_lt hm]
  full := .inl h

/-! ## 2. One digit that is dropped -/

/-- The digits of `x` are those of `m`, a point, the digit `v`, and any others. -/
structure Continues (m v : ℕ) (x : ℚ) : Prop where
  low : (m : ℚ) + v / 10 ≤ x
  high : x < m + (v + 1) / 10

/-- A small digit is left out. -/
theorem Continues.near_down {v : ℕ} {x : ℚ} (h : Continues m v x) (hv : v < 5) :
    |(m : ℚ) - x| ≤ 1 / 2 ∧ x < m + 1 / 2 := by
  have hdigit : (v : ℚ) + 1 ≤ 5 := by exact_mod_cast hv
  have hpos : (0 : ℚ) ≤ v := Nat.cast_nonneg v
  have hlow := h.low
  have hhigh := h.high
  refine ⟨abs_le.mpr ⟨?_, ?_⟩, ?_⟩ <;> linarith

/-- A large one takes the mantissa up. -/
theorem Continues.near_up {v : ℕ} {x : ℚ} (h : Continues m v x) (hv : 5 ≤ v) (hten : v < 10) :
    (m : ℚ) + 1 / 2 ≤ x ∧ x < m + 1 := by
  have hdigit : (5 : ℚ) ≤ v := by exact_mod_cast hv
  have hnext : (v : ℚ) + 1 ≤ 10 := by exact_mod_cast hten
  have hlow := h.low
  have hhigh := h.high
  constructor <;> linarith

/-- The last mantissa, rounded up, gives up a place. -/
theorem Rounds.of_carry (hm : m + 1 = mantissaBound) (hs : s + 1 ≤ maxScale)
    (hlow : (m : ℚ) + 1 / 2 ≤ q * 10 ^ (s + 1)) (hhigh : q * 10 ^ (s + 1) < m + 1) :
    Rounds ((m + 5) / 10) s q := by
  obtain rfl : m = 79228162514264337593543950335 := by
    rw [mantissaBound_eq] at hm
    omega
  have hcarry : (79228162514264337593543950335 + 5) / 10 = 7922816251426433759354395034 := by
    norm_num
  rw [pow_succ, ← mul_assoc] at hlow hhigh
  push_cast at hlow hhigh
  refine ⟨⟨?_, (Nat.le_succ s).trans hs, ?_, ?_⟩, .inr (.inr ?_)⟩
  · rw [hcarry, mantissaBound_eq]
    norm_num
  · rw [hcarry, abs_le]
    push_cast
    constructor <;> linarith
  · rw [cast_mantissaBound]
    linarith
  · rw [cast_mantissaBound]
    linarith

/-- **A digit that is dropped rounds.** -/
theorem Rounds.of_round (hc : c.isDigit = true) (hm : m < mantissaBound) (hs : s ≤ maxScale)
    (hfull : s = maxScale ∨ mantissaBound ≤ m * 10 + digitValue c)
    (hx : Continues m (digitValue c) (q * 10 ^ s)) {parts : ℕ × ℕ}
    (h : round m s c = .ok parts) : Rounds parts.1 parts.2 q := by
  have hbound := cast_le_of_lt hm
  -- The next place is one too many for the number as for its digits.
  have hplace : s = maxScale ∨ (mantissaBound : ℚ) - 1 / 2 ≤ q * 10 ^ s * 10 := by
    refine hfull.imp_right fun hfull => ?_
    have hdigits : (mantissaBound : ℚ) ≤ m * 10 + digitValue c := by exact_mod_cast hfull
    linarith [hx.low]
  rw [round] at h
  split at h
  · rename_i hdown
    cases h
    obtain ⟨hnear, hbelow⟩ := hx.near_down hdown
    exact ⟨⟨hm, hs, hnear, by linarith⟩, .inr hplace⟩
  · rename_i hup
    obtain ⟨hlow, hhigh⟩ := hx.near_up (Nat.le_of_not_lt hup) (digitValue_lt hc)
    split at h
    · rename_i hnext
      cases h
      have hnextBound := cast_le_of_lt hnext
      refine ⟨⟨hnext, hs, ?_, ?_⟩, .inr hplace⟩
      · rw [abs_le]
        push_cast
        constructor <;> linarith
      · push_cast at hnextBound
        linarith
    · rename_i hlast
      split at h
      · cases h
      · rename_i hscale
        cases h
        obtain ⟨t, rfl⟩ : ∃ t, s = t + 1 := Nat.exists_eq_succ_of_ne_zero hscale
        exact Rounds.of_carry (s := t) (by omega) hs hlow hhigh

/-- A digit that is dropped fails only if the mantissa is full in front of the point,
and the number too large by that. -/
theorem exists_round (hx : Continues m (digitValue c) (q * 10 ^ s))
    (hq : q < mantissaBound - 1 / 2) : ∃ parts, round m s c = .ok parts := by
  rw [round]
  split
  · exact ⟨_, rfl⟩
  · rename_i hup
    split
    · exact ⟨_, rfl⟩
    · rename_i hlast
      split
      · rename_i hscale
        subst hscale
        have hdigit : (5 : ℚ) ≤ digitValue c := by exact_mod_cast Nat.le_of_not_lt hup
        have hfull : (mantissaBound : ℚ) ≤ m + 1 := by exact_mod_cast Nat.le_of_not_lt hlast
        have hlow := hx.low
        rw [pow_zero, mul_one] at hlow
        linarith
      · exact ⟨_, rfl⟩

/-! ## 3. The significand -/

/-- The number in front of the exponent, in units of the last place that is kept. -/
theorem significand_mul_pow {kept dropped : List Char} (h : n.fraction = kept ++ dropped) :
    n.significand * 10 ^ kept.length =
      digitsValue (n.whole ++ kept) + digitsValue dropped / 10 ^ dropped.length := by
  have hdigits : digitsValue n.digits =
      digitsValue (n.whole ++ kept) * 10 ^ dropped.length + digitsValue dropped := by
    rw [Numeral.digits, h, ← List.append_assoc, digitsValue_append, appendDigits_eq]
  rw [Numeral.significand, hdigits, h, List.length_append, pow_add]
  push_cast
  field_simp

/-- The first digit that is dropped, and those behind it. -/
theorem continues_of_dropped {kept dropped : List Char} (h : n.fraction = kept ++ c :: dropped) :
    Continues (digitsValue (n.whole ++ kept)) (digitValue c)
      (n.significand * 10 ^ kept.length) := by
  have hdigit : ∀ d ∈ dropped, d.isDigit = true := fun d hd => n.isDigit d (by simp [h, hd])
  have hrest : (digitsValue dropped : ℚ) < 10 ^ dropped.length := by
    exact_mod_cast digitsValue_lt hdigit
  have hpos : (0 : ℚ) < 10 ^ dropped.length := by positivity
  rw [significand_mul_pow h, digitsValue_cons, List.length_cons, pow_succ]
  push_cast
  have hsplit : ((digitValue c : ℚ) * 10 ^ dropped.length + digitsValue dropped) /
      (10 ^ dropped.length * 10) = digitValue c / 10 +
        digitsValue dropped / 10 ^ dropped.length / 10 := by
    field_simp
  have hlow : (0 : ℚ) ≤ digitsValue dropped / 10 ^ dropped.length := by positivity
  have hhigh : (digitsValue dropped : ℚ) / 10 ^ dropped.length < 1 := (div_lt_one hpos).mpr hrest
  rw [hsplit]
  constructor <;> linarith

/-- What is kept of the fraction of a number is a mantissa with room for it. -/
theorem Kept.digitsValue_lt {whole digits kept dropped : List Char}
    (h : Kept (digitsValue whole) 0 digits kept dropped) :
    digitsValue (whole ++ kept) < mantissaBound := by
  rw [digitsValue_append]
  exact h.fits

/-- **The significand is rounded**, and only a zero loses its sign. -/
theorem Rounds.of_ofPlain {d : Decimal} (h : ofPlain n.significandText = .ok d) :
    Rounds d.mantissa d.scale n.significand ∧ d.negative = (n.negative && d.mantissa != 0) := by
  by_cases hwhole : digitsValue n.whole < mantissaBound
  · obtain ⟨kept, dropped, hkept, hread⟩ := ofPlain_eq hwhole
    have hm := hkept.digitsValue_lt
    have hs : kept.length ≤ maxScale := by simpa using hkept.places
    rw [hread] at h
    cases dropped with
    | nil =>
      cases h
      have hexact := significand_mul_pow hkept.split
      rw [digitsValue_nil, Nat.cast_zero, zero_div, add_zero] at hexact
      exact ⟨.of_eq hm hs hexact.symm, rfl⟩
    | cons c dropped =>
      have hc : c.isDigit = true := n.isDigit c (by simp [hkept.split])
      have hfull := hkept.full c rfl
      rw [Nat.zero_add, ← digitsValue_append] at hfull
      rw [roundBy] at h
      cases hround : round (digitsValue (n.whole ++ kept)) kept.length c with
      | error error =>
        rw [hround] at h
        cases h
      | ok parts =>
        rw [hround] at h
        cases h
        exact ⟨.of_round hc hm hs hfull (continues_of_dropped hkept.split) hround, rfl⟩
  · rw [ofPlain_of_le (Nat.le_of_not_lt hwhole)] at h
    cases h

/-- The integer part is at most the number. -/
theorem whole_le_significand : (digitsValue n.whole : ℚ) ≤ n.significand := by
  have h := significand_mul_pow (List.nil_append n.fraction).symm
  have hpos : (0 : ℚ) ≤ digitsValue n.fraction / 10 ^ n.fraction.length := by positivity
  rw [List.length_nil, pow_zero, mul_one, List.append_nil] at h
  linarith

/-- **A number that is not too large has a decimal.** -/
theorem exists_ofPlain (h : n.significand < mantissaBound - 1 / 2) :
    ∃ d, ofPlain n.significandText = .ok d := by
  have hwhole : digitsValue n.whole < mantissaBound := by
    have hle := whole_le_significand (n := n)
    have hlt : (digitsValue n.whole : ℚ) < mantissaBound := by linarith
    exact_mod_cast hlt
  obtain ⟨kept, dropped, hkept, hread⟩ := ofPlain_eq hwhole
  rw [hread]
  cases dropped with
  | nil => exact ⟨_, rfl⟩
  | cons c dropped =>
    obtain ⟨parts, hround⟩ := exists_round (continues_of_dropped hkept.split) h
    rw [roundBy, hround]
    exact ⟨_, rfl⟩

/-- **No digit is dropped without need.** -/
theorem ofPlain_of_fits (hdigits : digitsValue n.digits < mantissaBound)
    (hplaces : n.fraction.length ≤ maxScale) :
    ofPlain n.significandText =
      .ok (signed n.negative (digitsValue n.digits, n.fraction.length)) := by
  have hwhole : digitsValue n.whole < mantissaBound := by
    rw [Numeral.digits, digitsValue_append] at hdigits
    exact (le_appendDigits _ _).trans_lt hdigits
  obtain ⟨kept, dropped, hkept, hread⟩ := ofPlain_eq hwhole
  cases dropped with
  | nil =>
    have hall : n.fraction = kept := by simpa using hkept.split
    rw [hread, Numeral.digits, hall]
    rfl
  | cons c dropped =>
    exfalso
    rcases hkept.full c rfl with hlast | hfull
    · rw [hkept.split, List.length_append, List.length_cons] at hplaces
      omega
    · rw [Numeral.digits, hkept.split, digitsValue_append, appendDigits,
        List.foldl_append] at hdigits
      exact Nat.not_le.mpr ((le_appendDigits _ dropped).trans_lt hdigits) hfull

end ScimQuery.Decimal
