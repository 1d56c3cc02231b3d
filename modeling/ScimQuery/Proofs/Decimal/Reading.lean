/-
ScimQuery.Proofs.Decimal.Reading — which digits of a number literal are read.

The reader of decimals takes more texts than the numbers of JSON, and looks at a
text place by place. On a `Numeral` it comes to this: all digits of the integer part
are read, and they have to fit; of the fraction some are `Kept`, and the first of
the others, if there is one, rounds the mantissa that is there by then
(`readFraction_eq`). The exponent is a number in 32 bits that moves the point
(`ofText_eq`).
-/
import ScimQuery.Proofs.Lexemes.Numeral

namespace ScimQuery.Decimal

open Number

/-! ## 1. Bounds -/

theorem mantissaBound_eq : mantissaBound = 79228162514264337593543950336 := rfl

/-! ## 2. The integer part -/

variable {digits : List Char} {c : Char} {m s : Nat}

/-- Digits in front of the point are all taken, as long as they fit. -/
theorem readInteger_append (hdigits : ∀ c ∈ digits, c.isDigit = true) (started : Bool)
    (hfits : appendDigits m digits < mantissaBound) (rest : List Char) :
    readInteger started m (digits ++ rest) =
      readInteger (started || !digits.isEmpty) (appendDigits m digits) rest := by
  induction digits generalizing started m with
  | nil => simp
  | cons c digits ih =>
    have hc : c.isDigit = true := hdigits c (by simp)
    have hnext : ¬ mantissaBound ≤ m * 10 + digitValue c :=
      Nat.not_le.mpr ((le_appendDigits _ digits).trans_lt hfits)
    rw [List.cons_append, readInteger, if_pos hc, if_neg hnext,
      ih (fun d hd => hdigits d (by simp [hd])) true hfits]
    simp

/-- They fail if they do not fit. -/
theorem readInteger_append_of_le (hdigits : ∀ c ∈ digits, c.isDigit = true) (started : Bool)
    (hm : m < mantissaBound) (hfull : mantissaBound ≤ appendDigits m digits) (rest : List Char) :
    readInteger started m (digits ++ rest) = .error .tooManyDigits := by
  induction digits generalizing started m with
  | nil => exact absurd hm (Nat.not_lt.mpr hfull)
  | cons c digits ih =>
    have hc : c.isDigit = true := hdigits c (by simp)
    rw [List.cons_append, readInteger, if_pos hc]
    by_cases hnext : mantissaBound ≤ m * 10 + digitValue c
    · rw [if_pos hnext]
    · rw [if_neg hnext]
      exact ih (fun d hd => hdigits d (by simp [hd])) true (Nat.lt_of_not_le hnext) hfull

/-! ## 3. The fraction -/

/-- What the digits behind those that are kept do to the mantissa: the first one
rounds it. -/
def roundBy (m s : Nat) : List Char → Except DecimalError (Nat × Nat)
  | [] => .ok (m, s)
  | c :: _ => round m s c

/-- Of the digits behind a mantissa `m` of scale `s`, as many are kept as there is
room for. -/
structure Kept (m s : Nat) (digits kept dropped : List Char) : Prop where
  split : digits = kept ++ dropped
  fits : appendDigits m kept < mantissaBound
  places : s + kept.length ≤ maxScale
  /-- There is no room for one more. -/
  full : ∀ c ∈ dropped.head?, s + kept.length = maxScale ∨
    mantissaBound ≤ appendDigits m kept * 10 + digitValue c

/-- Nothing is kept where there is no room. -/
theorem Kept.none (hm : m < mantissaBound) (hs : s ≤ maxScale)
    (hfull : ∀ c ∈ digits.head?, s = maxScale ∨ mantissaBound ≤ m * 10 + digitValue c) :
    Kept m s digits [] digits :=
  ⟨rfl, hm, hs, hfull⟩

/-- One more digit in front is kept. -/
theorem Kept.cons {kept dropped : List Char}
    (h : Kept (m * 10 + digitValue c) (s + 1) digits kept dropped) :
    Kept m s (c :: digits) (c :: kept) dropped := by
  have hplaces : s + (c :: kept).length = s + 1 + kept.length := by
    rw [List.length_cons, Nat.add_assoc, Nat.add_comm 1]
  refine ⟨by rw [h.split, List.cons_append], h.fits, ?_, ?_⟩
  · rw [hplaces]
    exact h.places
  · rw [hplaces]
    exact h.full

/-- Behind the last place a digit rounds. -/
theorem behindLastPlace_digits (hdigits : ∀ c ∈ digits, c.isDigit = true) (wide : Bool) (m : Nat) :
    behindLastPlace wide m digits = roundBy m maxScale digits := by
  cases digits with
  | nil => rfl
  | cons c digits =>
    have hc : c.isDigit = true := hdigits c (by simp)
    rw [behindLastPlace, if_pos hc]
    · rfl
    · rintro rfl
      cases hc
    · rintro rfl
      cases hc

/-- **The digits of a fraction**: those are kept for which there is room, and the
next one rounds. -/
theorem readFraction_eq (hdigits : ∀ c ∈ digits, c.isDigit = true) (hm : m < mantissaBound)
    (hs : s < maxScale) : ∃ kept dropped, Kept m s digits kept dropped ∧
      readFraction true m s digits = roundBy (appendDigits m kept) (s + kept.length) dropped := by
  induction digits generalizing m s with
  | nil => exact ⟨[], [], .none hm hs.le (by simp), by simp [readFraction, roundBy]⟩
  | cons c digits ih =>
    have hc : c.isDigit = true := hdigits c (by simp)
    have hrest : ∀ d ∈ digits, d.isDigit = true := fun d hd => hdigits d (by simp [hd])
    rw [readFraction]
    simp only [hc, if_true]
    by_cases hnext : mantissaBound ≤ m * 10 + digitValue c
    · refine ⟨[], c :: digits, .none hm hs.le (by simp [hnext]), ?_⟩
      simp [hnext, roundBy]
    · rw [if_neg hnext]
      have hone : m * 10 + digitValue c < mantissaBound := Nat.lt_of_not_le hnext
      by_cases hlast : s + 1 = maxScale
      · refine ⟨[c], digits, .cons (.none hone hlast.le fun _ _ => .inl hlast), ?_⟩
        rw [if_pos hlast, behindLastPlace_digits hrest, ← hlast]
        rfl
      · have hplace : s + 1 < maxScale := Nat.lt_of_le_of_ne hs hlast
        obtain ⟨kept, dropped, hkept, hread⟩ := ih hrest hone hplace
        refine ⟨c :: kept, dropped, hkept.cons, ?_⟩
        rw [if_neg hlast, hread, List.length_cons, appendDigits_cons, Nat.add_assoc,
          Nat.add_comm 1]

/-! ## 4. The significand -/

variable {n : Numeral}

theorem takeSign_append {negative : Bool} {whole : List Char} (hwhole : IsInteger whole)
    (rest : List Char) :
    takeSign (signText negative ++ whole ++ rest) = (negative, whole ++ rest) := by
  obtain ⟨c, tail, rfl, hc⟩ := hwhole.exists_cons
  have hminus : c ≠ '-' := ne_of_isDigit hc (by decide)
  have hplus : c ≠ '+' := ne_of_isDigit hc (by decide)
  cases negative
  · simp [signText, takeSign, hminus, hplus]
  · rfl

/-- An integer part is made of digits. -/
theorem isDigit_of_isInteger {whole : List Char} (h : IsInteger whole) :
    ∀ c ∈ whole, c.isDigit = true := by
  rcases h with rfl | ⟨hdigits, -⟩
  · simp
  · exact hdigits.2

/-- The decimal of a mantissa and a scale; a zero has no sign. -/
def signed (negative : Bool) (parts : Nat × Nat) : Decimal :=
  ⟨negative && parts.1 != 0, parts.1, parts.2⟩

/-- An integer part that does not fit has no decimal. -/
theorem ofPlain_of_le (h : mantissaBound ≤ digitsValue n.whole) :
    ofPlain n.significandText = .error .tooManyDigits := by
  have hpos : 0 < mantissaBound := by decide
  rw [ofPlain, Numeral.significandText, takeSign_append n.isInteger]
  simp only [readInteger_append_of_le (isDigit_of_isInteger n.isInteger) false hpos h]
  rfl

/-- **The number in front of the exponent**: of its fraction those digits are kept
for which there is room. -/
theorem ofPlain_eq (h : digitsValue n.whole < mantissaBound) :
    ∃ kept dropped, Kept (digitsValue n.whole) 0 n.fraction kept dropped ∧
      ofPlain n.significandText =
        (roundBy (digitsValue (n.whole ++ kept)) kept.length dropped).map (signed n.negative) := by
  have hdigit := isDigit_of_isInteger n.isInteger
  obtain ⟨c, tail, hcons, -⟩ := n.isInteger.exists_cons
  have hstarted : (false || !n.whole.isEmpty) = true := by rw [hcons]; rfl
  obtain ⟨kept, dropped, hkept, hread⟩ := readFraction_eq n.isDigit h (by decide : 0 < maxScale)
  have hinteger : readInteger false 0 (n.whole ++ fractionText n.fraction) =
      roundBy (digitsValue (n.whole ++ kept)) kept.length dropped := by
    rw [readInteger_append hdigit false h, hstarted, digitsValue_append]
    rw [Nat.zero_add] at hread
    refine Eq.trans ?_ hread
    cases n.fraction with
    | nil => rfl
    | cons d fraction => rfl
  refine ⟨kept, dropped, hkept, ?_⟩
  rw [ofPlain, Numeral.significandText, takeSign_append n.isInteger]
  simp only [hinteger]
  cases roundBy (digitsValue (n.whole ++ kept)) kept.length dropped <;> rfl

/-! ## 5. The exponent -/

/-- The exponent is its sign and a number in 32 bits. -/
theorem readExponent_eq (e : Exponent) : readExponent (e.sign ++ e.digits) =
    if exponentBound ≤ digitsValue e.digits then .error .malformed
    else .ok (decide (e.sign = ['-']), digitsValue e.digits) := by
  obtain ⟨letter, sign, digits, -, hsign, hdigits⟩ := e
  obtain ⟨c, tail, rfl, hc⟩ := hdigits.exists_cons
  have hminus : c ≠ '-' := ne_of_isDigit hc (by decide)
  have hplus : c ≠ '+' := ne_of_isDigit hc (by decide)
  have hall : (c :: tail).all Char.isDigit = true := List.all_eq_true.mpr hdigits.2
  rcases hsign with rfl | rfl | rfl
  · simp [readExponent, hminus, hplus, hall]
  · simp [readExponent, hall]
  · simp [readExponent, hplus, hall]

/-- What an exponent does to the number in front of it. -/
def scaleBy (d : Decimal) : Option Exponent → Except DecimalError Decimal
  | none => .ok d
  | some e =>
    if exponentBound ≤ digitsValue e.digits then .error .malformed
    else if e.sign = ['-'] then d.scaleDown (digitsValue e.digits)
    else d.scaleUp (digitsValue e.digits)

/-- **The decimal of a number**: that of the number in front of the exponent, with the
point moved by the exponent. -/
theorem ofText_eq {text : String} (htext : n.text = text.toList) :
    ofText text = (ofPlain n.significandText).bind (scaleBy · n.exponent) := by
  have hfront : ∀ c ∈ n.significandText, (!isExponentMark c) = true := fun c hc => by
    rw [isExponentMark_of_mem (isMinus_signText n.negative) n.isInteger
      (isFraction_fractionText n.isDigit) c hc, Bool.not_false]
  have hback : Stops (!isExponentMark ·) (exponentText n.exponent) := by
    cases n.exponent with
    | none => simp [Stops, exponentText]
    | some e => simp [Stops, exponentText, e.isLetter]
  rw [ofText, ← htext, Numeral.text, takeWhile_append_of_stops hfront hback,
    dropWhile_append_of_stops hfront hback]
  cases ofPlain n.significandText with
  | error error => rfl
  | ok d =>
    cases n.exponent with
    | none => rfl
    | some e =>
      simp only [exponentText, readExponent_eq, bind, Except.bind, scaleBy]
      by_cases hbound : exponentBound ≤ digitsValue e.digits
      · simp only [if_pos hbound]
      · simp only [if_neg hbound, decide_eq_true_eq]

end ScimQuery.Decimal
