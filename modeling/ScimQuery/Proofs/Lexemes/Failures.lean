/-
ScimQuery.Proofs.Lexemes.Failures — how far a reader comes that fails.

A failed read is reported at one offset and stops at another: in front of an
exponent without digits the error lies ahead of the place where the reader
stops, and behind a word that is none it lies at the start of it. Both are
offsets in the text that was to be read, its end included
(`Token.le_length_of_read_eq_error`).
-/
import ScimQuery.Proofs.Lexemes.Token

namespace ScimQuery

/-! ## 1. Numbers -/

namespace Number

/-- A piece behind a piece. -/
theorem append_isPrefix {front back text : List Char} (hfront : front <+: text)
    (hback : back <+: text.drop front.length) : front ++ back <+: text := by
  obtain ⟨rest, rfl⟩ := hfront
  rw [List.drop_left] at hback
  exact (List.prefix_append_right_inj front).mpr hback

/-- The number that the text starts with, up to its exponent. -/
def base (text : List Char) : List Char :=
  let front := minus text ++ integer (text.drop (minus text).length)
  front ++ fraction (text.drop front.length)

/-- The mark of the exponent behind that. -/
def mark (text : List Char) : List Char :=
  exponentMark (text.drop (base text).length)

/-- The digits behind the mark. -/
def exponentDigits (text : List Char) : List Char :=
  ((text.drop (base text).length).drop (mark text).length).takeWhile Char.isDigit

/-- The reader by the parts that the text starts with. -/
theorem read_eq (text : List Char) : read text =
    if integer (text.drop (minus text).length) = [] then
      .error (.of .digitMissing (minus text).length (minus text).length)
    else if mark text = [] then .ok (base text)
    else if exponentDigits text = [] then
      .error (.of .exponentDigitMissing (base text ++ mark text).length (base text).length)
    else .ok (base text ++ mark text ++ exponentDigits text) := by
  have hbase : minus text ++ integer (text.drop (minus text).length) ++
      fraction (text.drop (minus text ++ integer (text.drop (minus text).length)).length) =
        base text := rfl
  have hmark : exponentMark (text.drop (base text).length) = mark text := rfl
  have hdigits : ((text.drop (base text).length).drop (mark text).length).takeWhile Char.isDigit =
      exponentDigits text := rfl
  simp only [read, hbase, hmark, List.isEmpty_iff]
  split
  · rfl
  · split
    · rename_i hnil
      rw [if_pos hnil]
    · rename_i hsome
      simp only [if_neg hsome, hdigits]
      split
      · rename_i hnil
        rw [if_pos hnil]
      · rename_i hdigit
        rw [if_neg hdigit]

theorem base_isPrefix (text : List Char) : base text <+: text :=
  append_isPrefix (append_isPrefix (minus_isPrefix text) (integer_isPrefix _)) (fraction_isPrefix _)

theorem mark_isPrefix (text : List Char) : base text ++ mark text <+: text :=
  append_isPrefix (base_isPrefix text) (exponentMark_isPrefix _)

/-- A number that fails, fails inside the text. -/
theorem le_length_of_read_eq_error {text : List Char} {failure : ReadFailure}
    (h : read text = .error failure) :
    failure.error.offset ≤ text.length ∧ failure.stop ≤ text.length := by
  rw [read_eq] at h
  split at h
  · cases h
    have hminus := (minus_isPrefix text).length_le
    exact ⟨hminus, hminus⟩
  · split at h
    · cases h
    · split at h
      · cases h
        exact ⟨(mark_isPrefix text).length_le, (base_isPrefix text).length_le⟩
      · cases h

end Number

/-! ## 2. Strings -/

namespace Quoted

/-- A failure behind some characters of the text. -/
theorem le_length_behind {failure : ReadFailure} {offset : Nat} (taken length : Nat)
    (h : failure.stop = failure.error.offset ∧ failure.error.offset ≤ offset + taken + length) :
    failure.stop = failure.error.offset ∧ failure.error.offset ≤ offset + (length + taken) := by
  refine ⟨h.1, h.2.trans_eq ?_⟩
  rw [Nat.add_assoc, Nat.add_comm taken]

/-- A string that fails, fails where it stops, inside the text. -/
theorem le_length_of_readBody_eq_error {text : List Char} {offset : Nat} {failure : ReadFailure}
    (h : readBody offset text = .error failure) :
    failure.stop = failure.error.offset ∧ failure.error.offset ≤ offset + text.length := by
  fun_induction readBody offset text with
  | case1 | case4 | case5 | case7 | case8 =>
    cases h
    exact ⟨rfl, Nat.le_add_right ..⟩
  | case2 => cases h
  | case3 offset a b c d text hhex ih =>
    exact le_length_behind 6 text.length (ih (result_map_eq_error_iff.mp h))
  | case6 offset c text _ _ hc ih =>
    exact le_length_behind 2 text.length (ih (result_map_eq_error_iff.mp h))
  | case9 offset c text hquote hhex hu hslash hlone ih =>
    exact le_length_behind 1 text.length (ih (result_map_eq_error_iff.mp h))

theorem le_length_of_read_eq_error {text : List Char} {failure : ReadFailure}
    (h : read ('"' :: text) = .error failure) :
    failure.error.offset ≤ ('"' :: text).length ∧ failure.stop ≤ ('"' :: text).length := by
  obtain ⟨hstop, hoffset⟩ := le_length_of_readBody_eq_error (result_map_eq_error_iff.mp h)
  rw [hstop, List.length_cons, Nat.add_comm]
  exact ⟨hoffset, hoffset⟩

end Quoted

/-! ## 3. Tokens -/

/-- A word that is none is reported at its start, and is passed over. -/
theorem Word.le_length_of_read_eq_error {text : List Char} {failure : ReadFailure}
    (h : Word.read text = .error failure) :
    failure.error.offset ≤ text.length ∧ failure.stop ≤ text.length := by
  unfold Word.read at h
  split at h
  · cases h
  · cases h
    exact ⟨Nat.zero_le _, (Word.run_isPrefix text).length_le⟩

/-- **A failed read stays inside the text**, with its error and with the place
where it stops. -/
theorem Token.le_length_of_read_eq_error {text : List Char} {failure : ReadFailure}
    (h : Token.read text = .error failure) :
    failure.error.offset ≤ text.length ∧ failure.stop ≤ text.length := by
  fun_cases Token.read text with
  | case1 | case2 | case3 | case4 | case5 | case6 | case7 | case8 => cases h
  | case9 c rest _ _ _ _ _ _ _ hquote =>
    obtain rfl : c = '"' := by simpa using hquote
    rw [read_of_quote] at h
    exact Quoted.le_length_of_read_eq_error (result_map_eq_error_iff.mp h)
  | case10 c rest _ _ _ _ _ _ _ _ hdigit =>
    rw [read_of_isDigit (by simpa using hdigit)] at h
    exact Number.le_length_of_read_eq_error (result_map_eq_error_iff.mp h)
  | case11 c rest _ _ _ _ _ _ _ _ _ halpha =>
    rw [read_of_isAlpha halpha] at h
    exact Word.le_length_of_read_eq_error h
  | case12 c rest h₁ h₂ h₃ h₄ h₅ h₆ h₇ hquote hdigit halpha =>
    rw [read_of_not_mark (by simp_all)] at h
    simp only [hquote, hdigit, halpha, Bool.false_eq_true, if_false, Except.error.injEq] at h
    subst h
    exact ⟨Nat.zero_le _, Nat.zero_le _⟩

end ScimQuery
