/-
ScimQuery.Proofs.Lexemes.Pchar — rows of `pchar`s, given without the scanner.

A `pchar` is written with one character or with three: a percent sign counts
together with the two hex digits behind it and not at all without them. The
scanner decides by the percent sign which of the two it has in front of it, so
what it answers is whether the text can be cut into `pchar`s and further
characters somehow (`isPcharRun_iff`). That takes a class of further characters
that a percent sign does not belong to. Where the first character has to be a
`pchar` (`isPcharPiece_iff`), no character of a `pchar` may belong to it.
-/
import ScimQuery.Proofs.Lexemes.SchemaUrn

namespace ScimQuery.SchemaUrn

open CharClass

/-! ## 1. The grammar -/

/-- The text of one `pchar`. -/
inductive IsPchar : List Char → Prop where
  | plain {c : Char} (hc : isUnreserved c = true ∨ isSubDelim c = true ∨ c = ':' ∨ c = '@') :
      IsPchar [c]
  | triplet {a b : Char} (ha : isHexDigit a = true) (hb : isHexDigit b = true) :
      IsPchar ['%', a, b]

/-- Any number of `pchar`s and of characters in `extra`, in any order. -/
inductive IsPcharRun (extra : Char → Bool) : List Char → Prop where
  | nil : IsPcharRun extra []
  | pchar {front rest : List Char} (hfront : IsPchar front) :
      IsPcharRun extra rest → IsPcharRun extra (front ++ rest)
  | extra {c : Char} {rest : List Char} (hc : extra c = true) :
      IsPcharRun extra rest → IsPcharRun extra (c :: rest)

/-- A `pchar` and such a run behind it. -/
def IsPcharPiece (extra : Char → Bool) (text : List Char) : Prop :=
  ∃ front rest, IsPchar front ∧ IsPcharRun extra rest ∧ text = front ++ rest

/-! ## 2. One `pchar` -/

theorem isPlainPchar_iff {c : Char} : isPlainPchar c = true ↔
    isUnreserved c = true ∨ isSubDelim c = true ∨ c = ':' ∨ c = '@' := by
  simp [isPlainPchar, or_assoc]

/-- The percent sign stands for itself nowhere. -/
theorem ne_percent_of_isPlainPchar {c : Char} (h : isPlainPchar c = true) : c ≠ '%' := by
  rintro rfl
  exact absurd h (by decide)

/-- Every text of a `pchar` starts with a character of the class. -/
theorem IsPchar.exists_cons {front : List Char} (h : IsPchar front) :
    ∃ c tail, front = c :: tail ∧ isPchar c = true := by
  cases h with
  | plain hc => exact ⟨_, [], rfl, isPchar_of_isPlainPchar (isPlainPchar_iff.mpr hc)⟩
  | triplet => exact ⟨'%', _, rfl, by decide⟩

section Scanner

variable {extra : Char → Bool} {c : Char} {front text rest : List Char}

/-- The scanner on everything but a percent sign. -/
theorem isPcharRun_cons (hc : c ≠ '%') (rest : List Char) :
    isPcharRun extra (c :: rest) = ((isPlainPchar c || extra c) && isPcharRun extra rest) := by
  rw [isPcharRun]
  rintro a b tail rfl
  exact absurd rfl hc

/-- The scanner passes over a `pchar`. -/
theorem isPcharRun_append (hfront : IsPchar front) (rest : List Char) :
    isPcharRun extra (front ++ rest) = isPcharRun extra rest := by
  cases hfront with
  | plain hc =>
    have hplain := isPlainPchar_iff.mpr hc
    rw [List.singleton_append, isPcharRun_cons (ne_percent_of_isPlainPchar hplain), hplain]
    simp
  | triplet ha hb => simp [isPcharRun, ha, hb]

/-! ## 3. Runs -/

/-- **The scanner answers whether the text can be cut into `pchar`s** and further
characters. -/
theorem isPcharRun_iff (hextra : extra '%' = false) :
    isPcharRun extra text = true ↔ IsPcharRun extra text := by
  constructor
  · intro h
    fun_induction isPcharRun extra text with
    | case1 => exact .nil
    | case2 a b rest ih =>
      simp only [Bool.and_eq_true] at h
      obtain ⟨⟨ha, hb⟩, hrest⟩ := h
      exact .pchar (.triplet ha hb) (ih hrest)
    | case3 c rest _ ih =>
      simp only [Bool.and_eq_true, Bool.or_eq_true] at h
      obtain ⟨hplain | hc, hrest⟩ := h
      · exact .pchar (.plain (isPlainPchar_iff.mp hplain)) (ih hrest)
      · exact .extra hc (ih hrest)
  · intro h
    induction h with
    | nil => rfl
    | pchar hfront _ ih => rwa [isPcharRun_append hfront]
    | @extra c rest hc _ ih =>
      have hpercent : c ≠ '%' := by
        rintro rfl
        rw [hextra] at hc
        cases hc
      rw [isPcharRun_cons hpercent, hc, ih]
      simp

theorem IsPcharRun.append (htext : IsPcharRun extra text) (hrest : IsPcharRun extra rest) :
    IsPcharRun extra (text ++ rest) := by
  induction htext with
  | nil => exact hrest
  | pchar hfront _ ih =>
    rw [List.append_assoc]
    exact .pchar hfront ih
  | extra hc _ ih => exact .extra hc ih

/-! ## 4. Pieces -/

theorem IsPcharPiece.isPcharRun (h : IsPcharPiece extra text) : IsPcharRun extra text := by
  obtain ⟨front, rest, hfront, hrest, rfl⟩ := h
  exact .pchar hfront hrest

/-- A piece goes on as a run does. -/
theorem IsPcharPiece.append (htext : IsPcharPiece extra text) (hrest : IsPcharRun extra rest) :
    IsPcharPiece extra (text ++ rest) := by
  obtain ⟨front, tail, hfront, htail, rfl⟩ := htext
  exact ⟨front, tail ++ rest, hfront, htail.append hrest, List.append_assoc ..⟩

/-- A run is a piece if its first character is none of the further ones. -/
theorem isPcharPiece_iff_head (hextra : ∀ c, isPchar c = true → extra c = false) :
    IsPcharPiece extra text ↔ IsPcharRun extra text ∧ ∃ c ∈ text.head?, extra c = false := by
  constructor
  · intro h
    refine ⟨h.isPcharRun, ?_⟩
    obtain ⟨front, rest, hfront, -, rfl⟩ := h
    obtain ⟨c, tail, rfl, hc⟩ := hfront.exists_cons
    exact ⟨c, rfl, hextra c hc⟩
  · intro h
    obtain ⟨hrun, c, hhead, hc⟩ := h
    cases hrun with
    | nil => cases hhead
    | pchar hfront hrest => exact ⟨_, _, hfront, hrest, rfl⟩
    | extra hd _ =>
      cases hhead
      rw [hd] at hc
      cases hc

theorem isPcharPiece_iff (hextra : ∀ c, isPchar c = true → extra c = false) :
    isPcharPiece extra text = true ↔ IsPcharPiece extra text := by
  rw [isPcharPiece_iff_head hextra, ← isPcharRun_iff (hextra '%' (by decide)), isPcharPiece,
    Bool.and_eq_true, Option.any_eq_true, and_comm]
  simp [Option.mem_def]

end Scanner

end ScimQuery.SchemaUrn
