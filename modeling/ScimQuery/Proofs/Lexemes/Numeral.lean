/-
ScimQuery.Proofs.Lexemes.Numeral — what a number of JSON denotes.

A `Numeral` is a number of JSON by its parts, and every number is one
(`isNumber_iff_exists_numeral`). Its digits, read as one integer, over ten to the
number of those behind the point, are its significand, and `value` is the
significand times ten to the exponent: a rational number, without any bound on its
digits or its exponent.
-/
import Mathlib.Algebra.Order.Field.Rat
import Mathlib.Tactic.Linarith
import Mathlib.Tactic.Positivity
import Mathlib.Tactic.Ring
import ScimQuery.Literal.Decimal
import ScimQuery.Proofs.Lexemes.Number

namespace ScimQuery

/-! ## 1. Digits -/

namespace Decimal

variable {digits : List Char} {c : Char}

theorem digitValue_lt (h : c.isDigit = true) : digitValue c < 10 := by
  have hdigit : (decide (c.val ≥ '0'.val) && decide (c.val ≤ '9'.val)) = true := h
  simp only [Bool.and_eq_true, decide_eq_true_eq, ge_iff_le, UInt32.le_iff_toNat_le,
    Char.reduceVal, UInt32.reduceToNat] at hdigit
  have hzero : '0'.toNat = 48 := rfl
  have hval : c.toNat = c.val.toNat := rfl
  rw [digitValue]
  omega

/-- The number with digits behind it. -/
def appendDigits (m : Nat) (digits : List Char) : Nat :=
  digits.foldl (fun value c => value * 10 + digitValue c) m

@[simp] theorem appendDigits_nil (m : Nat) : appendDigits m [] = m := rfl

@[simp] theorem appendDigits_cons (m : Nat) (c : Char) (digits : List Char) :
    appendDigits m (c :: digits) = appendDigits (m * 10 + digitValue c) digits := by
  rw [appendDigits, List.foldl_cons, appendDigits]

@[simp] theorem digitsValue_nil : digitsValue [] = 0 := rfl

theorem digitsValue_append (front back : List Char) :
    digitsValue (front ++ back) = appendDigits (digitsValue front) back :=
  List.foldl_append

/-- The digits in front are moved by as many places as there are digits behind. -/
theorem appendDigits_eq (m : Nat) (digits : List Char) :
    appendDigits m digits = m * 10 ^ digits.length + digitsValue digits := by
  induction digits generalizing m with
  | nil => simp
  | cons c digits ih =>
    have hfirst : digitsValue (c :: digits) = appendDigits (digitValue c) digits := by
      rw [digitsValue, List.foldl_cons, Nat.zero_mul, Nat.zero_add]
      rfl
    rw [appendDigits_cons, ih, hfirst, ih (digitValue c), List.length_cons, Nat.pow_succ]
    ring

/-- The first digit counts most. -/
theorem digitsValue_cons (c : Char) (digits : List Char) :
    digitsValue (c :: digits) = digitValue c * 10 ^ digits.length + digitsValue digits := by
  rw [← appendDigits_eq, digitsValue, List.foldl_cons, Nat.zero_mul, Nat.zero_add]
  rfl

theorem le_appendDigits (m : Nat) (digits : List Char) : m ≤ appendDigits m digits := by
  rw [appendDigits_eq]
  exact (Nat.le_mul_of_pos_right m (Nat.pow_pos (by decide))).trans (Nat.le_add_right _ _)

/-- So many digits denote less than ten to their number. -/
theorem digitsValue_lt (h : ∀ c ∈ digits, c.isDigit = true) :
    digitsValue digits < 10 ^ digits.length := by
  induction digits with
  | nil => simp
  | cons c digits ih =>
    have hc := digitValue_lt (h c (by simp))
    have hrest := ih fun d hd => h d (by simp [hd])
    rw [digitsValue_cons, List.length_cons, Nat.pow_succ]
    nlinarith

end Decimal

namespace Number

open Decimal

/-! ## 2. Numbers by their parts -/

/-- The exponent of a number: its letter, its sign, and its digits. -/
structure Exponent where
  letter : Char
  sign : List Char
  digits : List Char
  isLetter : isExponentMark letter = true
  isSign : IsExponentSign sign
  isDigits : IsDigits digits

/-- A number of JSON: whether it has a minus sign, the digits in front of the point
and behind it, and the exponent. -/
structure Numeral where
  negative : Bool
  whole : List Char
  fraction : List Char
  exponent : Option Exponent
  isInteger : IsInteger whole
  isDigit : ∀ c ∈ fraction, c.isDigit = true

/-- The sign that a number starts with. -/
def signText (negative : Bool) : List Char :=
  if negative then ['-'] else []

/-- A fraction with the point in front of it. Without digits there is no point. -/
def fractionText : List Char → List Char
  | [] => []
  | digits => '.' :: digits

/-- The exponent as it is written. -/
def exponentText : Option Exponent → List Char
  | none => []
  | some e => e.letter :: (e.sign ++ e.digits)

namespace Numeral

/-- The text in front of the exponent. -/
def significandText (n : Numeral) : List Char :=
  signText n.negative ++ n.whole ++ fractionText n.fraction

/-- The text of a number. -/
def text (n : Numeral) : List Char :=
  n.significandText ++ exponentText n.exponent

/-- All digits in front of the exponent. -/
def digits (n : Numeral) : List Char :=
  n.whole ++ n.fraction

/-- The number in front of the exponent, without its sign. -/
def significand (n : Numeral) : ℚ :=
  digitsValue n.digits / 10 ^ n.fraction.length

/-- The power of ten that the exponent stands for. -/
def power (n : Numeral) : ℤ :=
  match n.exponent with
  | none => 0
  | some e => if e.sign = ['-'] then -digitsValue e.digits else digitsValue e.digits

/-- The number without its sign. -/
def magnitude (n : Numeral) : ℚ :=
  n.significand * 10 ^ n.power

/-- The rational number that a numeral denotes. -/
def value (n : Numeral) : ℚ :=
  if n.negative then -n.magnitude else n.magnitude

end Numeral

/-! ## 3. Every number is a numeral -/

theorem isMinus_signText (negative : Bool) : IsMinus (signText negative) := by
  cases negative
  · exact .inl rfl
  · exact .inr rfl

theorem isFraction_fractionText {digits : List Char} (h : ∀ c ∈ digits, c.isDigit = true) :
    IsFraction (fractionText digits) := by
  cases digits with
  | nil => exact .inl rfl
  | cons c digits => exact .inr ⟨c :: digits, ⟨by simp, h⟩, rfl⟩

theorem isExponent_exponentText (exponent : Option Exponent) :
    IsExponent (exponentText exponent) := by
  cases exponent with
  | none => exact .inl rfl
  | some e =>
    have hletter : e.letter = 'e' ∨ e.letter = 'E' := by simpa [isExponentMark] using e.isLetter
    exact .inr ⟨e.letter, e.sign, e.digits, hletter, e.isSign, e.isDigits, rfl⟩

/-- **The numbers of JSON are the texts of numerals.** -/
theorem isNumber_iff_exists_numeral {text : List Char} :
    IsNumber text ↔ ∃ n : Numeral, n.text = text := by
  constructor
  · rintro ⟨sign, whole, frac, exp, hsign, hwhole, hfrac, hexp, rfl⟩
    obtain ⟨negative, rfl⟩ : ∃ negative, signText negative = sign := by
      rcases hsign with rfl | rfl
      · exact ⟨false, rfl⟩
      · exact ⟨true, rfl⟩
    obtain ⟨fraction, hdigit, rfl⟩ :
        ∃ fraction, (∀ c ∈ fraction, c.isDigit = true) ∧ fractionText fraction = frac := by
      rcases hfrac with rfl | ⟨digits, hdigits, rfl⟩
      · exact ⟨[], by simp, rfl⟩
      · obtain ⟨c, tail, rfl, -⟩ := hdigits.exists_cons
        exact ⟨c :: tail, hdigits.2, rfl⟩
    obtain ⟨exponent, rfl⟩ : ∃ exponent, exponentText exponent = exp := by
      rcases hexp with rfl | ⟨letter, sign, digits, hletter, hsign, hdigits, rfl⟩
      · exact ⟨none, rfl⟩
      · exact ⟨some ⟨letter, sign, digits, by simpa [isExponentMark] using hletter, hsign, hdigits⟩,
          rfl⟩
    exact ⟨⟨negative, whole, fraction, exponent, hwhole, hdigit⟩, rfl⟩
  · rintro ⟨n, rfl⟩
    exact ⟨_, _, _, _, isMinus_signText n.negative, n.isInteger, isFraction_fractionText n.isDigit,
      isExponent_exponentText n.exponent, rfl⟩

/-! ## 4. The exponent in the text -/

/-- In front of the exponent there is no letter of one. -/
theorem isExponentMark_of_mem {sign whole frac : List Char} (hsign : IsMinus sign)
    (hwhole : IsInteger whole) (hfrac : IsFraction frac) :
    ∀ c ∈ sign ++ whole ++ frac, isExponentMark c = false := by
  have hdigits {digits : List Char} (h : IsDigits digits) (c : Char) (hc : c ∈ digits) :
      isExponentMark c = false := by
    have he : c ≠ 'e' := ne_of_isDigit (h.2 c hc) (by decide)
    have hE : c ≠ 'E' := ne_of_isDigit (h.2 c hc) (by decide)
    simp [isExponentMark, he, hE]
  intro c hc
  rcases List.mem_append.mp hc with hc | hc
  · rcases List.mem_append.mp hc with hc | hc
    · rcases hsign with rfl | rfl
      · cases hc
      · rw [List.mem_singleton.mp hc]
        decide
    · rcases hwhole with rfl | ⟨hwhole, -⟩
      · rw [List.mem_singleton.mp hc]
        decide
      · exact hdigits hwhole c hc
  · rcases hfrac with rfl | ⟨digits, hfrac, rfl⟩
    · cases hc
    · rcases List.mem_cons.mp hc with rfl | hc
      · decide
      · exact hdigits hfrac c hc

end Number

end ScimQuery
