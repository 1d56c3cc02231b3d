/-
ScimQuery.Proofs.Lexemes.Escapes — the escapes that a quoted string may have.

They are written out here without the lexer and without the decoder: what each
of the eight short escapes denotes (`ShortEscape`), and which number a hex digit
stands for (`IsHexOf`). The lexer only asks whether there is an escape, and it
finds these (`isShortEscape_iff`, `isHexDigit_four_iff`).
-/
import ScimQuery.Proofs.Lexemes.Scan
import ScimQuery.Token.Quoted

namespace ScimQuery.Quoted

open CharClass

/-! ## 1. Short escapes -/

/-- A backslash and `c` denote `e`, as in JSON. -/
inductive ShortEscape : (c e : Char) → Prop where
  | quote : ShortEscape '"' '"'
  | backslash : ShortEscape '\\' '\\'
  | slash : ShortEscape '/' '/'
  | backspace : ShortEscape 'b' '\u0008'
  | formFeed : ShortEscape 'f' '\u000c'
  | lineFeed : ShortEscape 'n' '\u000a'
  | carriageReturn : ShortEscape 'r' '\u000d'
  | tab : ShortEscape 't' '\u0009'

/-- The lexer takes the characters that have a denotation behind a backslash. -/
theorem isShortEscape_iff {c : Char} : isShortEscape c = true ↔ ∃ e, ShortEscape c e := by
  refine ⟨fun h => ?_, fun h => ?_⟩
  · have hmem : c ∈ ['"', '\\', '/', 'b', 'f', 'n', 'r', 't'] := List.contains_iff_mem.mp h
    simp only [List.mem_cons, List.not_mem_nil, or_false] at hmem
    rcases hmem with rfl | rfl | rfl | rfl | rfl | rfl | rfl | rfl <;> exact ⟨_, by constructor⟩
  · obtain ⟨e, he⟩ := h
    cases he <;> decide

/-! ## 2. Hex digits -/

/-- The hex digit `c`, in either case, stands for `n`. -/
def IsHexOf (c : Char) (n : Nat) : Prop :=
  n < 16 ∧ (c = n.digitChar ∨ c = n.digitChar.toUpper)

instance (c : Char) (n : Nat) : Decidable (IsHexOf c n) :=
  inferInstanceAs (Decidable (_ ∧ _))

/-- The character stands for a number. -/
def IsHex (c : Char) : Prop :=
  ∃ n, IsHexOf c n

/-- The value of a hex digit is the number that it stands for. -/
theorem isHexOf_iff {c : Char} {n : Nat} :
    IsHexOf c n ↔ isHexDigit c = true ∧ hexValue c = n := by
  refine ⟨fun h => ?_, fun h => ?_⟩
  · obtain ⟨hn, hc⟩ := h
    have hlower : ∀ n < 16, isHexDigit n.digitChar = true ∧ hexValue n.digitChar = n := by
      decide
    have hupper : ∀ n < 16, isHexDigit n.digitChar.toUpper = true ∧
        hexValue n.digitChar.toUpper = n := by decide
    rcases hc with rfl | rfl
    · exact hlower n hn
    · exact hupper n hn
  · obtain ⟨hc, rfl⟩ := h
    have hascii : ∀ n < 128, isHexDigit (.ofNat n) = true →
        IsHexOf (.ofNat n) (hexValue (.ofNat n)) := by decide
    have hlt : c.toNat < 128 :=
      Nat.lt_succ_of_le (UInt32.le_iff_toNat_le.mp (val_le_of_isHexDigit hc))
    rw [← Char.ofNat_toNat c] at hc ⊢
    exact hascii c.toNat hlt hc

theorem isHex_iff {c : Char} : IsHex c ↔ isHexDigit c = true := by
  simp only [IsHex, isHexOf_iff, exists_and_left, exists_eq', and_true]

/-- A hex digit stands for its value. -/
theorem IsHex.isHexOf {c : Char} (h : IsHex c) : IsHexOf c (hexValue c) :=
  isHexOf_iff.mpr ⟨isHex_iff.mp h, rfl⟩

/-- What is looked for behind a backslash and a `u`. -/
theorem isHexDigit_four_iff {a b c d : Char} :
    (isHexDigit a && isHexDigit b && isHexDigit c && isHexDigit d) = true ↔
      IsHex a ∧ IsHex b ∧ IsHex c ∧ IsHex d := by
  simp only [Bool.and_eq_true, isHex_iff, and_assoc]

end ScimQuery.Quoted
