/-
ScimQuery.Proofs.Lexemes.Number — the numbers of JSON, and the scanner that
reads them.

`IsNumber` is the grammar `[ "-" ] int [ frac ] [ exp ]`, part by part. The
scanner looks at a text in the same order, and each part is proved against
the scanner of that part: what it takes is such a part (`…_sound`), and such
a part is taken whole if what follows cannot prolong it (`…_append`).

A number ends where no digit, dot or `e` follows. The condition is needed:
`1` in front of `.5` is no number of its own, and `1` in front of `e` is an
error.
-/
import ScimQuery.Proofs.Lexemes.Scan
import ScimQuery.Token.Number

namespace ScimQuery.Number

/-! ## 1. The grammar -/

/-- One digit or more. -/
def IsDigits (text : List Char) : Prop :=
  text ≠ [] ∧ ∀ c ∈ text, c.isDigit = true

/-- `[ "-" ]`. -/
def IsMinus (text : List Char) : Prop :=
  text = [] ∨ text = ['-']

/-- `int`: a zero, or digits of which the first is another one. -/
def IsInteger (text : List Char) : Prop :=
  text = ['0'] ∨ (IsDigits text ∧ text.head? ≠ some '0')

/-- `[ frac ]`. -/
def IsFraction (text : List Char) : Prop :=
  text = [] ∨ ∃ digits, IsDigits digits ∧ text = '.' :: digits

/-- The sign of an exponent. -/
def IsExponentSign (text : List Char) : Prop :=
  text = [] ∨ text = ['+'] ∨ text = ['-']

/-- `[ exp ]`. -/
def IsExponent (text : List Char) : Prop :=
  text = [] ∨ ∃ mark sign digits, (mark = 'e' ∨ mark = 'E') ∧ IsExponentSign sign ∧
    IsDigits digits ∧ text = mark :: (sign ++ digits)

/-- A number of JSON. -/
def IsNumber (text : List Char) : Prop :=
  ∃ sign whole frac exp, IsMinus sign ∧ IsInteger whole ∧ IsFraction frac ∧ IsExponent exp ∧
    text = sign ++ whole ++ frac ++ exp

/-- The characters that may prolong a number. -/
def isNumberChar (c : Char) : Bool :=
  c.isDigit || c == '.' || c == 'e' || c == 'E'

/-! ## 2. Digits -/

/-- Digits are no sign, no dot and no `e`. -/
theorem ne_of_isDigit {c d : Char} (hc : c.isDigit = true) (hd : d.isDigit = false) : c ≠ d := by
  intro h
  rw [h, hd] at hc
  cases hc

/-- The digits that a scan takes, if it takes any. -/
theorem isDigits_takeWhile {text : List Char} (h : text.takeWhile Char.isDigit ≠ []) :
    IsDigits (text.takeWhile Char.isDigit) :=
  ⟨h, fun _ hc => List.mem_takeWhile_imp hc⟩

theorem takeWhile_digits {digits rest : List Char} (h : IsDigits digits)
    (hrest : Stops Char.isDigit rest) : (digits ++ rest).takeWhile Char.isDigit = digits :=
  takeWhile_append_of_stops h.2 hrest

theorem IsDigits.exists_cons {digits : List Char} (h : IsDigits digits) :
    ∃ c tail, digits = c :: tail ∧ c.isDigit = true := by
  obtain ⟨c, tail, rfl⟩ := List.exists_cons_of_ne_nil h.1
  exact ⟨c, tail, rfl, h.2 c (by simp)⟩

/-- An integer part starts with a digit. -/
theorem IsInteger.exists_cons {whole : List Char} (h : IsInteger whole) :
    ∃ c tail, whole = c :: tail ∧ c.isDigit = true := by
  rcases h with rfl | ⟨hdigits, _⟩
  · exact ⟨'0', [], rfl, by decide⟩
  · exact hdigits.exists_cons

/-! ## 3. What the scanners take -/

theorem isMinus_minus (text : List Char) : IsMinus (minus text) := by
  unfold minus
  split
  · exact .inr rfl
  · exact .inl rfl

theorem isInteger_integer {text : List Char} (h : integer text ≠ []) :
    IsInteger (integer text) := by
  unfold integer at h ⊢
  split at h
  · exact .inl rfl
  · rename_i hzero
    refine .inr ⟨isDigits_takeWhile h, fun hhead => ?_⟩
    cases text with
    | nil => simp at h
    | cons c text =>
      cases hc : c.isDigit with
      | false => simp [hc] at h
      | true =>
        simp only [List.takeWhile_cons, hc, if_true, List.head?_cons, Option.some.injEq] at hhead
        exact hzero text (by rw [hhead])

theorem isFraction_fraction (text : List Char) : IsFraction (fraction text) := by
  unfold fraction
  split
  · split
    · exact .inl rfl
    · rename_i hne
      exact .inr ⟨_, isDigits_takeWhile hne, rfl⟩
  · exact .inl rfl

theorem isExponentSign_exponentSign (text : List Char) : IsExponentSign (exponentSign text) := by
  unfold exponentSign
  split
  · exact .inr (.inl rfl)
  · exact .inr (.inr rfl)
  · exact .inl rfl

/-- The mark of an exponent is absent, or an `e` and the sign behind it. -/
theorem exponentMark_cases (text : List Char) :
    exponentMark text = [] ∨
      ∃ mark sign, (mark = 'e' ∨ mark = 'E') ∧ IsExponentSign sign ∧
        exponentMark text = mark :: sign := by
  unfold exponentMark
  split
  · exact .inr ⟨_, _, .inl rfl, isExponentSign_exponentSign _, rfl⟩
  · exact .inr ⟨_, _, .inr rfl, isExponentSign_exponentSign _, rfl⟩
  · exact .inl rfl

theorem minus_isPrefix (text : List Char) : minus text <+: text := by
  unfold minus
  split <;> simp

theorem integer_isPrefix (text : List Char) : integer text <+: text := by
  unfold integer
  split
  · simp
  · exact List.takeWhile_prefix _

theorem fraction_isPrefix (text : List Char) : fraction text <+: text := by
  unfold fraction
  split
  · split
    · simp
    · rw [List.cons_prefix_cons]
      exact ⟨rfl, List.takeWhile_prefix _⟩
  · simp

theorem exponentMark_isPrefix (text : List Char) : exponentMark text <+: text := by
  have hsign (rest : List Char) : exponentSign rest <+: rest := by
    unfold exponentSign
    split <;> simp
  unfold exponentMark
  split
  · simpa using hsign _
  · simpa using hsign _
  · simp

/-! ## 4. The reader in sequence -/

section Sequence

/-! The text is cut where the scanners of the reader cut it. -/

variable {sign whole frac rest : List Char}

theorem drop_parts (sign whole frac rest : List Char) :
    (sign ++ whole ++ frac ++ rest).drop sign.length = whole ++ frac ++ rest ∧
      (sign ++ whole ++ frac ++ rest).drop (sign ++ whole).length = frac ++ rest ∧
      (sign ++ whole ++ frac ++ rest).drop (sign ++ whole ++ frac).length = rest := by
  refine ⟨?_, ?_, List.drop_left⟩
  · rw [List.append_assoc, List.append_assoc, List.drop_left, List.append_assoc]
  · rw [List.append_assoc (sign ++ whole), List.drop_left]

/-- The reader without an exponent. -/
theorem read_of_no_mark (hsign : minus (sign ++ whole ++ frac ++ rest) = sign)
    (hwhole : integer (whole ++ frac ++ rest) = whole) (hne : whole ≠ [])
    (hfrac : fraction (frac ++ rest) = frac) (hmark : exponentMark rest = []) :
    read (sign ++ whole ++ frac ++ rest) = .ok (sign ++ whole ++ frac) := by
  obtain ⟨h₁, h₂, h₃⟩ := drop_parts sign whole frac rest
  have hempty : whole.isEmpty = false := by simpa using hne
  simp only [read, hsign, h₁, hwhole, hempty, Bool.false_eq_true, if_false, h₂, hfrac, h₃, hmark]

/-- The reader behind the mark of an exponent. -/
theorem read_of_mark_iff {mark : Char} {expSign number : List Char}
    (hsign : minus (sign ++ whole ++ frac ++ rest) = sign)
    (hwhole : integer (whole ++ frac ++ rest) = whole) (hne : whole ≠ [])
    (hfrac : fraction (frac ++ rest) = frac) (hmark : exponentMark rest = mark :: expSign) :
    read (sign ++ whole ++ frac ++ rest) = .ok number ↔
      (rest.drop (mark :: expSign).length).takeWhile Char.isDigit ≠ [] ∧
        sign ++ whole ++ frac ++ mark :: expSign ++
          (rest.drop (mark :: expSign).length).takeWhile Char.isDigit = number := by
  obtain ⟨h₁, h₂, h₃⟩ := drop_parts sign whole frac rest
  have hempty : whole.isEmpty = false := by simpa using hne
  simp only [read, hsign, h₁, hwhole, hempty, Bool.false_eq_true, if_false, h₂, hfrac, h₃, hmark]
  cases (rest.drop (mark :: expSign).length).takeWhile Char.isDigit with
  | nil => simp
  | cons digit digits => simp

end Sequence

/-- **The reader is sound**: what it takes is a number, and stands at the
start of the text. -/
theorem read_sound {text number : List Char} (h : read text = .ok number) :
    IsNumber number ∧ number <+: text := by
  obtain ⟨text₁, h₁⟩ := minus_isPrefix text
  obtain ⟨text₂, h₂⟩ := integer_isPrefix text₁
  obtain ⟨rest, h₃⟩ := fraction_isPrefix text₂
  have htext : minus text ++ integer text₁ ++ fraction text₂ ++ rest = text := by
    rw [List.append_assoc, h₃, List.append_assoc, h₂, h₁]
  have hdrop : text.drop (minus text).length = text₁ := by
    have := congrArg (List.drop (minus text).length) h₁
    rw [List.drop_left] at this
    exact this.symm
  by_cases hne : integer text₁ = []
  · simp [read, hdrop, hne] at h
  · have hwhole : integer (integer text₁ ++ fraction text₂ ++ rest) = integer text₁ := by
      rw [List.append_assoc, h₃, h₂]
    have hsign : minus (minus text ++ integer text₁ ++ fraction text₂ ++ rest) = minus text := by
      rw [htext]
    have hfrac : fraction (fraction text₂ ++ rest) = fraction text₂ := by rw [h₃]
    have hbase : IsNumber (minus text ++ integer text₁ ++ fraction text₂ ++ []) :=
      ⟨_, _, _, [], isMinus_minus text, isInteger_integer hne, isFraction_fraction text₂,
        .inl rfl, rfl⟩
    rcases exponentMark_cases rest with hmark | ⟨mark, sign, he, hexpSign, hmark⟩
    · rw [← htext, read_of_no_mark hsign hwhole hne hfrac hmark, Except.ok.injEq] at h
      subst h
      exact ⟨by simpa using hbase, rest, htext⟩
    · obtain ⟨rest', h₄⟩ := exponentMark_isPrefix rest
      have hrest : rest.drop (mark :: sign).length = rest' := by
        rw [← h₄, hmark, List.drop_left]
      rw [← htext, read_of_mark_iff hsign hwhole hne hfrac hmark, hrest] at h
      obtain ⟨hdigits, rfl⟩ := h
      refine ⟨⟨_, _, _, mark :: (sign ++ rest'.takeWhile Char.isDigit), isMinus_minus text,
        isInteger_integer hne, isFraction_fraction text₂,
        .inr ⟨mark, sign, _, he, hexpSign, isDigits_takeWhile hdigits, rfl⟩, by simp⟩, ?_⟩
      obtain ⟨rest'', h₅⟩ : rest'.takeWhile Char.isDigit <+: rest' := List.takeWhile_prefix _
      refine ⟨rest'', ?_⟩
      rw [List.append_assoc, h₅, List.append_assoc, ← hmark, h₄, htext]

/-! ## 5. Numbers are read -/

/-- What may stand behind an integer part: a fraction, an exponent, or what
does not prolong the number. -/
theorem stops_isDigit_frac_exp {frac exp rest : List Char} (hfrac : IsFraction frac)
    (hexp : IsExponent exp) (hrest : Stops isNumberChar rest) :
    Stops Char.isDigit (frac ++ exp ++ rest) := by
  rcases hfrac with rfl | ⟨digits, _, rfl⟩
  · rcases hexp with rfl | ⟨mark, sign, digits, rfl | rfl, _, _, rfl⟩
    · exact hrest.mono fun c hc => by simp [isNumberChar, hc]
    · simp
    · simp
  · simp

/-- What may stand behind a fraction. -/
theorem stops_exp {exp rest : List Char} (hexp : IsExponent exp) (hrest : Stops isNumberChar rest) :
    Stops (fun c => c.isDigit || c == '.') (exp ++ rest) := by
  rcases hexp with rfl | ⟨mark, sign, digits, rfl | rfl, _, _, rfl⟩
  · refine hrest.mono fun c hc => ?_
    simp only [Bool.or_eq_true] at hc
    rcases hc with hc | hc <;> simp [isNumberChar, hc]
  · simp
  · simp

theorem minus_append {sign whole rest : List Char} (hsign : IsMinus sign)
    (hwhole : IsInteger whole) : minus (sign ++ whole ++ rest) = sign := by
  obtain ⟨c, tail, rfl, hc⟩ := hwhole.exists_cons
  rcases hsign with rfl | rfl
  · have hne : c ≠ '-' := ne_of_isDigit hc (by decide)
    simp [minus, hne]
  · rfl

theorem integer_append {whole rest : List Char} (hwhole : IsInteger whole)
    (hrest : Stops Char.isDigit rest) : integer (whole ++ rest) = whole := by
  rcases hwhole with rfl | ⟨hdigits, hzero⟩
  · rfl
  · obtain ⟨c, tail, rfl, hc⟩ := hdigits.exists_cons
    have hne : c ≠ '0' := by simpa using hzero
    have htake := takeWhile_digits hdigits hrest
    simpa [integer, hne] using htake

theorem fraction_append {frac rest : List Char} (hfrac : IsFraction frac)
    (hrest : Stops (fun c => c.isDigit || c == '.') rest) : fraction (frac ++ rest) = frac := by
  rcases hfrac with rfl | ⟨digits, hdigits, rfl⟩
  · cases rest with
    | nil => rfl
    | cons c rest =>
      have hc : c ≠ '.' := by
        have := Stops.cons_iff.mp hrest
        simp only [Bool.or_eq_false_iff, beq_eq_false_iff_ne] at this
        exact this.2
      simp [fraction, hc]
  · have hstop : Stops Char.isDigit rest := hrest.mono fun c hc => by simp [hc]
    simp only [fraction, List.cons_append, takeWhile_digits hdigits hstop]
    split
    · exact absurd rfl hdigits.1
    · rfl

theorem exponentMark_append {mark : Char} {sign digits rest : List Char}
    (hmark : mark = 'e' ∨ mark = 'E') (hsign : IsExponentSign sign) (hdigits : IsDigits digits) :
    exponentMark (mark :: (sign ++ digits) ++ rest) = mark :: sign := by
  obtain ⟨c, tail, rfl, hc⟩ := hdigits.exists_cons
  have hplus : c ≠ '+' := ne_of_isDigit hc (by decide)
  have hminus : c ≠ '-' := ne_of_isDigit hc (by decide)
  rcases hmark with rfl | rfl <;> rcases hsign with rfl | rfl | rfl <;>
    simp [exponentMark, exponentSign, hplus, hminus]

/-- **Numbers are read**: a number is taken whole in front of everything that
does not prolong it. -/
theorem read_append {number rest : List Char} (hnumber : IsNumber number)
    (hrest : Stops isNumberChar rest) : read (number ++ rest) = .ok number := by
  obtain ⟨sign, whole, frac, exp, hsign, hwhole, hfrac, hexp, rfl⟩ := hnumber
  obtain ⟨c, tail, hcons, _⟩ := hwhole.exists_cons
  have hne : whole ≠ [] := by simp [hcons]
  have hminus : minus (sign ++ whole ++ frac ++ (exp ++ rest)) = sign := by
    rw [List.append_assoc (sign ++ whole)]
    exact minus_append hsign hwhole
  have hint : integer (whole ++ frac ++ (exp ++ rest)) = whole := by
    rw [List.append_assoc]
    exact integer_append hwhole (by simpa using stops_isDigit_frac_exp hfrac hexp hrest)
  have hfr : fraction (frac ++ (exp ++ rest)) = frac :=
    fraction_append hfrac (stops_exp hexp hrest)
  rw [List.append_assoc _ exp]
  rcases hexp with rfl | ⟨mark, sign', digits, hmark, hsign', hdigits, rfl⟩
  · have hnone : exponentMark ([] ++ rest) = [] := by
      cases rest with
      | nil => rfl
      | cons c rest =>
        have hc := Stops.cons_iff.mp hrest
        simp only [isNumberChar, Bool.or_eq_false_iff, beq_eq_false_iff_ne] at hc
        simp [exponentMark, hc.1.2, hc.2]
    rw [read_of_no_mark hminus hint hne hfr hnone, List.append_nil]
  · have hstop : Stops Char.isDigit rest := hrest.mono fun c hc => by simp [isNumberChar, hc]
    have htake : ((mark :: (sign' ++ digits) ++ rest).drop (mark :: sign').length).takeWhile
        Char.isDigit = digits := by
      have : mark :: (sign' ++ digits) ++ rest = (mark :: sign') ++ (digits ++ rest) := by simp
      rw [this, List.drop_left, takeWhile_digits hdigits hstop]
    have hexp : exponentMark (mark :: (sign' ++ digits) ++ rest) = mark :: sign' :=
      exponentMark_append hmark hsign' hdigits
    rw [read_of_mark_iff hminus hint hne hfr hexp, htake]
    exact ⟨hdigits.1, by simp⟩

end ScimQuery.Number
