/-
ScimQuery.Proofs.LongestNumber — the number scanner against the longest match.

A text may start with several numbers: `1`, `12` and `12.5` all stand at the start
of `12.5e`. `IsLongest` picks one of them without a scanner. The scanner looks at
most two characters ahead and never steps back, so what has to be shown is that no
number goes on behind the place where the scanner leaves a part
(`isPrefix_taken`): another number at the start of the text has the same part, or
it ends inside that part.

In one case the scanner refuses a text that starts with a number. An `e` directly
behind a number without an exponent is taken for the start of one, and it is an
error if no digits follow.
-/
import ScimQuery.Proofs.Lexemes.Failures
import ScimQuery.Proofs.Lexemes.Numeral
import ScimQuery.Proofs.SessionBounds

namespace ScimQuery

namespace Number

open Decimal (isExponentMark)

/-! ## 1. The longest number -/

/-- A number that the text starts with, and none of those is longer. -/
structure IsLongest (number text : List Char) : Prop where
  isNumber : IsNumber number
  isPrefix : number <+: text
  length_le : ∀ other, IsNumber other → other <+: text → other.length ≤ number.length

/-- There is one longest number at most. -/
theorem IsLongest.unique {number other text : List Char} (h : IsLongest number text)
    (h' : IsLongest other text) : number = other := by
  have hle := h'.length_le number h.isNumber h.isPrefix
  have hge := h.length_le other h'.isNumber h'.isPrefix
  exact (List.prefix_of_prefix_length_le h.isPrefix h'.isPrefix hle).eq_of_length
    (Nat.le_antisymm hle hge)

/-- The number has no exponent, and the text has an `e` directly behind it. -/
def StopsAtExponent (number text : List Char) : Prop :=
  (∀ c ∈ number, isExponentMark c = false) ∧
    ∃ letter behind, isExponentMark letter = true ∧ text = number ++ letter :: behind

/-- A sign of an exponent. -/
def isSign (c : Char) : Bool :=
  c == '+' || c == '-'

/-! ## 2. The parts of a number at the start of a text -/

variable {whole frac exp rest text other : List Char}

/-- The integer part of another number is a front of the one that is scanned. -/
theorem isPrefix_integer (hwhole : IsInteger whole) (rest : List Char) :
    whole <+: integer (whole ++ rest) := by
  rcases hwhole with rfl | ⟨hdigits, hzero⟩
  · exact List.prefix_rfl
  · obtain ⟨c, tail, rfl, hc⟩ := hdigits.exists_cons
    have hne : c ≠ '0' := by simpa using hzero
    have hscan : integer (c :: tail ++ rest) = (c :: tail ++ rest).takeWhile Char.isDigit := by
      simp [integer, hne]
    rw [hscan, List.takeWhile_append_of_pos hdigits.2]
    exact List.prefix_append _ _

/-- So is its fraction. -/
theorem isPrefix_fraction (hfrac : IsFraction frac) (rest : List Char) :
    frac <+: fraction (frac ++ rest) := by
  rcases hfrac with rfl | ⟨digits, hdigits, rfl⟩
  · exact List.nil_prefix
  · have hscan : (digits ++ rest).takeWhile Char.isDigit =
        digits ++ rest.takeWhile Char.isDigit := List.takeWhile_append_of_pos hdigits.2
    rw [List.cons_append, fraction, hscan]
    split
    · rename_i hnil
      exact absurd (List.append_eq_nil_iff.mp hnil).1 hdigits.1
    · exact List.prefix_append _ _

/-- A digit behind an integer part belongs to no other part. -/
theorem eq_nil_of_not_stops_isDigit (hfrac : IsFraction frac) (hexp : IsExponent exp)
    (h : ¬ Stops Char.isDigit (frac ++ exp ++ rest)) : frac = [] ∧ exp = [] := by
  rcases hfrac with rfl | ⟨digits, -, rfl⟩
  · refine ⟨rfl, ?_⟩
    rcases hexp with rfl | ⟨letter, sign, digits, rfl | rfl, -, -, rfl⟩
    · rfl
    · simp at h
    · simp at h
  · simp at h

/-- A digit or a dot behind a fraction does not belong to an exponent. -/
theorem eq_nil_of_not_stops_dot (hexp : IsExponent exp)
    (h : ¬ Stops (fun c => c.isDigit || c == '.') (exp ++ rest)) : exp = [] := by
  rcases hexp with rfl | ⟨letter, sign, digits, rfl | rfl, -, -, rfl⟩
  · rfl
  · simp at h
  · simp at h

/-! ## 3. What the scanner takes -/

/-- The number that the scanner finds if there is one. -/
def taken (text : List Char) : List Char :=
  if mark text = [] ∨ exponentDigits text = [] then base text
  else base text ++ mark text ++ exponentDigits text

theorem base_isPrefix_taken (text : List Char) : base text <+: taken text := by
  unfold taken
  split
  · exact List.prefix_rfl
  · rw [List.append_assoc]
    exact List.prefix_append _ _

theorem taken_isPrefix (text : List Char) : taken text <+: text := by
  unfold taken
  split
  · exact base_isPrefix text
  · refine append_isPrefix (mark_isPrefix text) ?_
    rw [List.length_append, ← List.drop_drop]
    exact List.takeWhile_prefix _

/-- What is scanned in front of the exponent is a number. -/
theorem isNumber_base (h : integer (text.drop (minus text).length) ≠ []) :
    IsNumber (base text) :=
  ⟨_, _, _, [], isMinus_minus text, isInteger_integer h, isFraction_fraction _, .inl rfl,
    (List.append_nil _).symm⟩

theorem isNumber_taken (h : integer (text.drop (minus text).length) ≠ []) :
    IsNumber (taken text) := by
  unfold taken
  split
  · exact isNumber_base h
  · rename_i hparts
    rw [not_or] at hparts
    rcases exponentMark_cases (text.drop (base text).length) with hmark | hmark
    · exact absurd hmark hparts.1
    · obtain ⟨letter, sign, hletter, hsign, hmark⟩ := hmark
      refine ⟨_, _, _, mark text ++ exponentDigits text, isMinus_minus text, isInteger_integer h,
        isFraction_fraction _, .inr ⟨letter, sign, exponentDigits text, hletter, hsign,
          isDigits_takeWhile hparts.2, ?_⟩, List.append_assoc _ _ _⟩
      rw [mark, hmark, List.cons_append]

/-- The scanners of the sign and the integer part, in front of the rest. -/
theorem scan_front {sign : List Char} (hsign : IsMinus sign) (hwhole : IsInteger whole)
    (rest : List Char) : minus (sign ++ whole ++ rest) = sign ∧
      (sign ++ whole ++ rest).drop sign.length = whole ++ rest := by
  refine ⟨minus_append hsign hwhole, ?_⟩
  rw [List.append_assoc, List.drop_left]

/-- If the integer part ends in front of the rest, the fraction is scanned from there. -/
theorem base_append {sign : List Char} (hsign : IsMinus sign) (hwhole : IsInteger whole)
    (hrest : Stops Char.isDigit rest) :
    base (sign ++ whole ++ rest) = sign ++ whole ++ fraction rest := by
  obtain ⟨hminus, hdrop⟩ := scan_front hsign hwhole rest
  simp only [base, hminus, hdrop, integer_append hwhole hrest, List.drop_left]

/-- An exponent behind what is scanned in front of it is taken, with the digits that
prolong it. -/
theorem isPrefix_taken_of_exponent {exp rest front : List Char} (hexp : IsExponent exp)
    (hbase : base (front ++ (exp ++ rest)) = front) :
    front ++ exp <+: taken (front ++ (exp ++ rest)) := by
  have hdrop : (front ++ (exp ++ rest)).drop front.length = exp ++ rest := List.drop_left
  rcases hexp with rfl | ⟨letter, sign, digits, hletter, hsign, hdigits, rfl⟩
  · have hfront := base_isPrefix_taken (front ++ ([] ++ rest))
    rw [hbase] at hfront
    rwa [List.append_nil]
  · have hmark : mark (front ++ (letter :: (sign ++ digits) ++ rest)) = letter :: sign := by
      rw [mark, hbase, hdrop, exponentMark_append hletter hsign hdigits]
    have hscan : exponentDigits (front ++ (letter :: (sign ++ digits) ++ rest)) =
        digits ++ rest.takeWhile Char.isDigit := by
      have hcons : letter :: (sign ++ digits) ++ rest = letter :: sign ++ (digits ++ rest) := by
        simp
      rw [exponentDigits, hmark, hbase, hdrop, hcons, List.drop_left,
        List.takeWhile_append_of_pos hdigits.2]
    have hsome : ¬ (letter :: sign = [] ∨ digits ++ rest.takeWhile Char.isDigit = []) := by
      simp [hdigits.1]
    rw [taken, hmark, hscan, hbase, if_neg hsome]
    exact ⟨rest.takeWhile Char.isDigit, by simp⟩

/-- **No number goes on behind what the scanner takes.** -/
theorem isPrefix_taken (hother : IsNumber other) (hstarts : other <+: text) :
    integer (text.drop (minus text).length) ≠ [] ∧ other <+: taken text := by
  obtain ⟨rest, rfl⟩ := hstarts
  obtain ⟨sign, whole, frac, exp, hsign, hwhole, hfrac, hexp, rfl⟩ := hother
  have htext : sign ++ whole ++ frac ++ exp ++ rest = sign ++ whole ++ (frac ++ exp ++ rest) := by
    simp only [List.append_assoc]
  obtain ⟨hminus, hdrop⟩ := scan_front hsign hwhole (frac ++ exp ++ rest)
  have hinteger := isPrefix_integer hwhole (frac ++ exp ++ rest)
  obtain ⟨c, tail, hcons, -⟩ := hwhole.exists_cons
  rw [htext]
  refine ⟨?_, ?_⟩
  · rw [hminus, hdrop]
    intro hnil
    rw [hnil, hcons] at hinteger
    simp at hinteger
  · by_cases hdigit : Stops Char.isDigit (frac ++ exp ++ rest)
    · have hbase := base_append hsign hwhole hdigit
      by_cases hdot : Stops (fun c => c.isDigit || c == '.') (exp ++ rest)
      · -- The three parts are the ones that are scanned, and an exponent may follow.
        rw [List.append_assoc frac] at hbase ⊢
        rw [fraction_append hfrac hdot, ← List.append_assoc (sign ++ whole) frac] at hbase
        rw [← List.append_assoc (sign ++ whole) frac]
        exact isPrefix_taken_of_exponent hexp hbase
      · obtain rfl := eq_nil_of_not_stops_dot hexp hdot
        refine List.IsPrefix.trans ?_ (base_isPrefix_taken _)
        rw [hbase, List.append_nil, List.append_nil]
        exact (List.prefix_append_right_inj _).mpr (isPrefix_fraction hfrac rest)
    · obtain ⟨rfl, rfl⟩ := eq_nil_of_not_stops_isDigit hfrac hexp hdigit
      refine List.IsPrefix.trans ?_ (base_isPrefix_taken _)
      rw [base, hminus, hdrop, List.append_nil, List.append_nil]
      exact ((List.prefix_append_right_inj sign).mpr hinteger).trans (List.prefix_append _ _)

/-- What the scanner takes is the longest number, if the text starts with one. -/
theorem isLongest_taken (h : integer (text.drop (minus text).length) ≠ []) :
    IsLongest (taken text) text :=
  ⟨isNumber_taken h, taken_isPrefix text,
    fun _ hother hstarts => (isPrefix_taken hother hstarts).2.length_le⟩

/-! ## 4. Where an exponent is cut short -/

/-- In front of the exponent there is no letter of one. -/
theorem isExponentMark_of_mem_base (h : integer (text.drop (minus text).length) ≠ []) :
    ∀ c ∈ base text, isExponentMark c = false :=
  isExponentMark_of_mem (isMinus_minus text) (isInteger_integer h) (isFraction_fraction _)

/-- The mark of an exponent is there if its letter is. -/
theorem exponentMark_ne_nil_iff :
    exponentMark text ≠ [] ↔ ∃ letter behind, isExponentMark letter = true ∧
      text = letter :: behind := by
  cases text with
  | nil => simp [exponentMark]
  | cons c behind =>
    by_cases hletter : c = 'e' ∨ c = 'E'
    · rcases hletter with rfl | rfl <;> simp [exponentMark, isExponentMark]
    · rw [not_or] at hletter
      simp [exponentMark, isExponentMark, hletter.1, hletter.2]

/-- The mark is a letter and the sign behind it, if there is one. -/
theorem exponentMark_eq_cons {letter : Char} {sign : List Char}
    (h : exponentMark text = letter :: sign) :
    isExponentMark letter = true ∧ IsExponentSign sign ∧
      ∃ behind, text = letter :: (sign ++ behind) ∧ (sign = [] → Stops isSign behind) := by
  have hsplit (rest : List Char) : ∃ behind, rest = exponentSign rest ++ behind ∧
      (exponentSign rest = [] → Stops isSign behind) := by
    unfold exponentSign
    split
    · exact ⟨_, rfl, by simp⟩
    · exact ⟨_, rfl, by simp⟩
    · rename_i hplus hminus
      refine ⟨rest, rfl, fun _ c hc => ?_⟩
      obtain ⟨tail, rfl⟩ := List.head?_eq_some_iff.mp hc
      simp only [isSign, Bool.or_eq_false_iff, beq_eq_false_iff_ne]
      exact ⟨fun h => hplus tail (by rw [h]), fun h => hminus tail (by rw [h])⟩
  unfold exponentMark at h
  split at h
  · rename_i rest
    cases h
    obtain ⟨behind, hrest, hstop⟩ := hsplit rest
    exact ⟨rfl, isExponentSign_exponentSign rest, behind, by rw [← hrest], hstop⟩
  · rename_i rest
    cases h
    obtain ⟨behind, hrest, hstop⟩ := hsplit rest
    exact ⟨rfl, isExponentSign_exponentSign rest, behind, by rw [← hrest], hstop⟩
  · cases h

/-- Directly behind what is scanned in front of an exponent there is a letter of one
if its mark is there. -/
theorem stopsAtExponent_base_iff (h : integer (text.drop (minus text).length) ≠ []) :
    StopsAtExponent (base text) text ↔ mark text ≠ [] := by
  have hcut : base text ++ text.drop (base text).length = text :=
    List.prefix_iff_eq_append.mp (base_isPrefix text)
  rw [mark, exponentMark_ne_nil_iff]
  constructor
  · rintro ⟨-, letter, behind, hletter, htext⟩
    exact ⟨letter, behind, hletter, List.append_cancel_left (hcut.trans htext)⟩
  · rintro ⟨letter, behind, hletter, hdrop⟩
    exact ⟨isExponentMark_of_mem_base h, letter, behind, hletter, by rw [← hdrop, hcut]⟩

/-- **The scanner fails on an exponent** where the mark of one is there and no digits
are. Otherwise it takes what the text starts with. -/
theorem stopsAtExponent_taken_iff (h : integer (text.drop (minus text).length) ≠ []) :
    StopsAtExponent (taken text) text ↔ mark text ≠ [] ∧ exponentDigits text = [] := by
  unfold taken
  split
  · rename_i hparts
    rw [stopsAtExponent_base_iff h]
    constructor
    · exact fun hmark => ⟨hmark, hparts.resolve_left hmark⟩
    · exact fun hstop => hstop.1
  · rename_i hparts
    rw [not_or] at hparts
    refine iff_of_false ?_ fun hstop => hparts.2 hstop.2
    rintro ⟨hfree, -⟩
    obtain ⟨letter, sign, hmark⟩ := List.exists_cons_of_ne_nil hparts.1
    have hletter := hfree letter (by simp [hmark])
    rw [(exponentMark_eq_cons hmark).1] at hletter
    cases hletter

/-- The scanner by what it takes. -/
theorem read_eq_taken (text : List Char) : read text =
    if integer (text.drop (minus text).length) = [] then
      .error (.of .digitMissing (minus text).length (minus text).length)
    else if mark text ≠ [] ∧ exponentDigits text = [] then
      .error (.of .exponentDigitMissing (base text ++ mark text).length (base text).length)
    else .ok (taken text) := by
  rw [read_eq, taken]
  by_cases hint : integer (text.drop (minus text).length) = []
  · simp only [hint, if_true]
  · by_cases hmark : mark text = [] <;> by_cases hdigits : exponentDigits text = [] <;>
      simp [hint, hmark, hdigits]

/-! ## 5. The number reader -/

/-- **The reader takes the longest number**, unless it stops at an exponent. -/
theorem read_eq_ok_iff {number : List Char} : read text = .ok number ↔
    IsLongest number text ∧ ¬ StopsAtExponent number text := by
  rw [read_eq_taken]
  by_cases hint : integer (text.drop (minus text).length) = []
  · rw [if_pos hint]
    refine iff_of_false (by simp) fun h => ?_
    exact (isPrefix_taken h.1.isNumber h.1.isPrefix).1 hint
  · have hlongest := isLongest_taken hint
    have hstop := stopsAtExponent_taken_iff hint
    rw [if_neg hint]
    split
    · rename_i hparts
      refine iff_of_false (by simp) fun h => ?_
      rw [← h.1.unique hlongest] at hstop
      exact h.2 (hstop.mpr hparts)
    · rename_i hparts
      rw [Except.ok.injEq]
      constructor
      · rintro rfl
        exact ⟨hlongest, fun h => hparts (hstop.mp h)⟩
      · exact fun h => hlongest.unique h.1

/-- The text starts with a minus sign, and no digit follows. -/
def LacksDigit (text : List Char) : Prop :=
  ∃ behind, text = '-' :: behind ∧ Stops Char.isDigit behind

/-- The text starts with a number that has no exponent and is the longest one, then
goes on with the letter and the sign of an exponent, as far as there is a sign, and
ends so after `n` characters. -/
def LacksExponentDigit (text : List Char) (n : Nat) : Prop :=
  ∃ number letter sign behind, IsLongest number text ∧
    (∀ c ∈ number, isExponentMark c = false) ∧ isExponentMark letter = true ∧
    IsExponentSign sign ∧ (sign = [] → Stops isSign behind) ∧ Stops Char.isDigit behind ∧
    text = number ++ letter :: (sign ++ behind) ∧ n = (number ++ letter :: sign).length

/-- A text that starts with a digit or a minus sign has no integer part only if no
digit follows the sign. -/
theorem lacksDigit_of_integer_eq_nil (hstart : ∃ c ∈ text.head?, c.isDigit = true ∨ c = '-')
    (h : integer (text.drop (minus text).length) = []) :
    LacksDigit text ∧ (minus text).length = 1 := by
  have hstops {text : List Char} (h : integer text = []) : Stops Char.isDigit text := by
    unfold integer at h
    split at h
    · cases h
    · exact stops_of_takeWhile_eq_nil h
  obtain ⟨c, hc, hfirst⟩ := hstart
  obtain ⟨behind, rfl⟩ := List.head?_eq_some_iff.mp hc
  by_cases hminus : c = '-'
  · subst hminus
    exact ⟨⟨behind, rfl, hstops h⟩, rfl⟩
  · have hnone : minus (c :: behind) = [] := by simp [minus, hminus]
    rw [hnone, List.length_nil, List.drop_zero] at h
    have hno := Stops.cons_iff.mp (hstops h)
    rw [hfirst.resolve_right hminus] at hno
    cases hno

/-- The text goes on with the letter and the sign of an exponent. -/
theorem lacksExponentDigit_of_parts (hint : integer (text.drop (minus text).length) ≠ [])
    (hmark : mark text ≠ []) (hdigits : exponentDigits text = []) :
    LacksExponentDigit text (base text ++ mark text).length := by
  have hcut : base text ++ text.drop (base text).length = text :=
    List.prefix_iff_eq_append.mp (base_isPrefix text)
  have htaken : taken text = base text := if_pos (.inr hdigits)
  obtain ⟨letter, sign, hcons⟩ := List.exists_cons_of_ne_nil hmark
  obtain ⟨hletter, hsign, behind, hdrop, hstop⟩ := exponentMark_eq_cons hcons
  have hnone : Stops Char.isDigit behind := by
    have hscan : (text.drop (base text).length).drop (mark text).length = behind := by
      rw [hdrop, hcons, ← List.cons_append, List.drop_left]
    rw [exponentDigits, hscan] at hdigits
    exact stops_of_takeWhile_eq_nil hdigits
  refine ⟨base text, letter, sign, behind, htaken ▸ isLongest_taken hint,
    isExponentMark_of_mem_base hint, hletter, hsign, hstop, hnone, ?_, by rw [hcons]⟩
  rw [← hdrop, hcut]

/-- **Where the reader fails**, and where the error lies. -/
theorem of_read_eq_error {failure : ReadFailure}
    (hstart : ∃ c ∈ text.head?, c.isDigit = true ∨ c = '-') (h : read text = .error failure) :
    LacksDigit text ∧ failure.error = ⟨.digitMissing, 1⟩ ∨
      ∃ n, LacksExponentDigit text n ∧ failure.error = ⟨.exponentDigitMissing, n⟩ := by
  rw [read_eq_taken] at h
  split at h
  · rename_i hint
    obtain ⟨hlacks, hlength⟩ := lacksDigit_of_integer_eq_nil hstart hint
    cases h
    exact .inl ⟨hlacks, by rw [hlength]; rfl⟩
  · rename_i hint
    split at h
    · rename_i hparts
      cases h
      exact .inr ⟨_, lacksExponentDigit_of_parts hint hparts.1 hparts.2, rfl⟩
    · cases h

end Number

namespace Token.Reader

open Number

/-- A session in front of a digit or a minus sign reads what the number reader reads. -/
theorem read_rest_of_isDigit {reader : Reader}
    (hstart : ∃ c ∈ reader.rest.head?, c.isDigit = true ∨ c = '-') :
    read reader.rest = (Number.read reader.rest).map (.number <| String.ofList ·) := by
  obtain ⟨c, hc, hfirst⟩ := hstart
  obtain ⟨behind, hrest⟩ := List.head?_eq_some_iff.mp hc
  rw [hrest]
  exact read_of_isDigit hfirst behind

/-- **The number scanner.** Where what is left starts with a minus sign or a digit,
a number is read if it is the longest one that stands there, unless it has no
exponent and an `e` stands directly behind it, and the session goes on behind it. If
there is no such number, the session fails on a number: behind the minus sign if no
digit follows it, and otherwise behind the `e` and the sign that may stand there. Read
in place, one character after the other, the answer and the place behind it are the
same. -/
theorem next_number_iff (reader : Reader)
    (hstart : ∃ c ∈ reader.rest.head?, c.isDigit = true ∨ c = '-') :
    (∀ number, reader.next.1 = .ok (.number number) ↔
      IsLongest number.toList reader.rest ∧ ¬ StopsAtExponent number.toList reader.rest) ∧
    (∀ number, reader.next.1 = .ok (.number number) →
      reader.next.2 = { reader with position := reader.position + number.length }) ∧
    ((∀ number, IsLongest number reader.rest → StopsAtExponent number reader.rest) →
      ∃ error, reader.next.1 = .error error ∧ error.cause.category = .number ∧
        (LacksDigit reader.rest ∧ error.offset = reader.position + 1 ∨
          ∃ n, LacksExponentDigit reader.rest n ∧ error.offset = reader.position + n)) ∧
    InPlace.read? reader.text reader.position = some (reader.next.1, reader.next.2.position) := by
  have hread := read_rest_of_isDigit hstart
  have hplace : reader.position ≤ reader.text.length := by
    obtain ⟨c, hc, -⟩ := hstart
    exact position_le_of_head? hc
  have hnumber (number : String) :
      reader.next.1 = .ok (.number number) ↔ Number.read reader.rest = .ok number.toList := by
    unfold next
    rw [hread]
    cases Number.read reader.rest with
    | error failure => simp [Except.map]
    | ok taken => simp [Except.map, ← String.toList_inj]
  refine ⟨fun number => (hnumber number).trans read_eq_ok_iff, fun number h => ?_, fun h => ?_,
    InPlace.read?_eq_next hplace⟩
  · obtain ⟨-, hbehind⟩ :=
      next_eq_ok_iff.mp (show reader.next = (.ok (.number number), reader.next.2) by rw [← h])
    exact hbehind
  · cases hresult : Number.read reader.rest with
    | ok number =>
      obtain ⟨hlongest, hstop⟩ := read_eq_ok_iff.mp hresult
      exact absurd (h number hlongest) hstop
    | error failure =>
      have hnext : reader.next.1 = .error (failure.shift reader.position).error := by
        simp [next, hread, hresult, Except.map]
      refine ⟨_, hnext, ?_⟩
      rcases of_read_eq_error hstart hresult with ⟨hlacks, herror⟩ | ⟨n, hlacks, herror⟩
      · rw [ReadFailure.shift, herror]
        exact ⟨rfl, .inl ⟨hlacks, rfl⟩⟩
      · rw [ReadFailure.shift, herror]
        exact ⟨rfl, .inr ⟨n, hlacks, rfl⟩⟩

/-- Sessions behind a word and a space. The first one is in front of a number with a
dot and an `e` behind it, which belong to no number. The second one is in front of an
exponent that has a sign and no digit. -/
theorem next_number_iff_exponents :
    (⟨"a 10.5e-3.e".toList, 2, []⟩ : Reader).next.1 = .ok (.number "10.5e-3") ∧
    IsLongest "10.5e-3".toList "10.5e-3.e".toList ∧
    (⟨"a 10.5e-3.e".toList, 2, []⟩ : Reader).next.2 = ⟨"a 10.5e-3.e".toList, 9, []⟩ ∧
    InPlace.read? "a 10.5e-3.e".toList 2 = some (.ok (.number "10.5e-3"), 9) ∧
    (⟨"a 0e+x".toList, 2, [0]⟩ : Reader).next.1 = .error ⟨.exponentDigitMissing, 5⟩ ∧
    LacksExponentDigit "0e+x".toList 3 := by
  have hread : (⟨"a 10.5e-3.e".toList, 2, []⟩ : Reader).next.1 = .ok (.number "10.5e-3") := by
    decide
  have hfails : (⟨"a 0e+x".toList, 2, [0]⟩ : Reader).next.1 =
      .error ⟨.exponentDigitMissing, 5⟩ := by decide
  obtain ⟨hlongest, hbehind, -, hplace⟩ :=
    next_number_iff ⟨"a 10.5e-3.e".toList, 2, []⟩ ⟨'1', by decide, .inl (by decide)⟩
  rw [hbehind _ hread, hread] at hplace
  obtain ⟨hnone, -, herror, -⟩ :=
    next_number_iff ⟨"a 0e+x".toList, 2, [0]⟩ ⟨'0', by decide, .inl (by decide)⟩
  refine ⟨hread, ((hlongest _).mp hread).1, hbehind _ hread, hplace, hfails, ?_⟩
  obtain ⟨error, hnext, -, hcases⟩ := herror fun number hnumber => by
    by_contra hstop
    have hok := (hnone (String.ofList number)).mpr (by
      rw [String.toList_ofList]
      exact ⟨hnumber, hstop⟩)
    rw [hfails] at hok
    cases hok
  rw [hfails, Except.error.injEq] at hnext
  subst hnext
  rcases hcases with ⟨⟨behind, hminus, -⟩, -⟩ | ⟨n, hlacks, hoffset⟩
  · exact absurd hminus (by simp [rest])
  · obtain rfl : 3 = n := Nat.add_left_cancel (show 2 + 3 = 2 + n from hoffset)
    exact hlacks

end Token.Reader

end ScimQuery
