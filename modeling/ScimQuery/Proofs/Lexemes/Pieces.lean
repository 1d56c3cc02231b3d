/-
ScimQuery.Proofs.Lexemes.Pieces — the pieces of a quoted string.

The lexer and the decoder scan a string apart from one another. What the two
have in common is `CutInto`: a body is a row of characters that stand for
themselves, short escapes with what they denote, and `u` escapes with the numbers
of their digits. The decoder's scan gives the one cut that there is, and ends at
the quote behind the body (`pieces?_eq_some_iff`). The bodies that the lexer's scan
takes are those that have a cut (`isBody_iff`). So neither scan takes an escape that
the other refuses, and both find the same end.
-/
import ScimQuery.Literal.Decoding
import ScimQuery.Proofs.Lexemes.Quoted

namespace ScimQuery.Decoding

open Quoted

/-! ## 1. The grammar -/

/-- What a piece is written with. A quote and a backslash do not stand for
themselves. -/
inductive Piece.Writes : Piece → List Char → Prop where
  | plain {c : Char} (hquote : c ≠ '"') (hslash : c ≠ '\\') : Writes (.plain c) [c]
  | short {c e : Char} (h : ShortEscape c e) : Writes (.short e) ['\\', c]
  | unit {a b c d : Char} {i j k l : Nat} (ha : IsHexOf a i) (hb : IsHexOf b j)
      (hc : IsHexOf c k) (hd : IsHexOf d l) :
      Writes (.unit (((i * 16 + j) * 16 + k) * 16 + l)) ['\\', 'u', a, b, c, d]

/-- The rows of pieces that a body is cut into. -/
inductive CutInto : List Char → List Piece → Prop where
  | nil : CutInto [] []
  | cons {piece : Piece} {pieces : List Piece} {chunk rest : List Char} :
      piece.Writes chunk → CutInto rest pieces → CutInto (chunk ++ rest) (piece :: pieces)

/-! ## 2. The decoder's escapes -/

/-- Every four hex digits are a unit. -/
theorem Piece.writes_unit {a b c d : Char} (ha : IsHex a) (hb : IsHex b) (hc : IsHex c)
    (hd : IsHex d) : (Piece.unit (unitValue a b c d)).Writes ['\\', 'u', a, b, c, d] :=
  .unit ha.isHexOf hb.isHexOf hc.isHexOf hd.isHexOf

/-- The decoder's table holds the denotations of the short escapes. -/
theorem shortEscape?_eq_some_iff {c e : Char} : shortEscape? c = some e ↔ ShortEscape c e := by
  constructor
  · intro h
    unfold shortEscape? at h
    split at h <;> cases h <;> constructor
  · intro h
    cases h <;> rfl

/-! ## 3. The decoder's scan -/

/-- A body is cut, and the scan stops behind its quote. -/
theorem pieces?_append {body : List Char} {pieces : List Piece} (h : CutInto body pieces)
    (behind : List Char) : pieces? (body ++ '"' :: behind) = some (pieces, behind) := by
  induction h with
  | nil => rfl
  | cons hpiece _ ih =>
    rw [List.append_assoc]
    cases hpiece with
    | plain hquote hslash =>
      rw [List.cons_append, List.nil_append, pieces?, ih]
      · rfl
      all_goals simp_all
    | @short c e he =>
      have hu : c ≠ 'u' := by
        rintro rfl
        cases he
      rw [List.cons_append, List.cons_append, List.nil_append, pieces?]
      · rw [shortEscape?_eq_some_iff.mpr he, ih]
        rfl
      all_goals simp_all
    | unit ha hb hc hd =>
      rw [isHexOf_iff] at ha hb hc hd
      simp only [List.cons_append, List.nil_append, pieces?, ha.1, hb.1, hc.1, hd.1, Bool.and_self,
        if_true, ih, unitValue, ha.2, hb.2, hc.2, hd.2]
      rfl

/-- A piece in front of what the scan gives. -/
theorem map_cons_eq_some_iff {piece : Piece} {pieces : List Piece} {behind : List Char}
    {scan : Option (List Piece × List Char)} :
    scan.map (fun cut => (piece :: cut.1, cut.2)) = some (pieces, behind) ↔
      ∃ rest, scan = some (rest, behind) ∧ pieces = piece :: rest := by
  simp only [Option.map_eq_some_iff, Prod.mk.injEq, Prod.exists]
  constructor
  · rintro ⟨rest, _, hscan, rfl, rfl⟩
    exact ⟨rest, hscan, rfl⟩
  · rintro ⟨rest, hscan, rfl⟩
    exact ⟨rest, behind, hscan, rfl, rfl⟩

/-- What the scan gives is a cut of what stands in front of a quote. -/
theorem pieces?_sound {text behind : List Char} {pieces : List Piece}
    (h : pieces? text = some (pieces, behind)) :
    ∃ body, CutInto body pieces ∧ text = body ++ '"' :: behind := by
  fun_induction pieces? text generalizing pieces with
  | case1 => cases h
  | case2 rest =>
    cases h
    exact ⟨[], .nil, rfl⟩
  | case3 a b c d rest hhex ih =>
    obtain ⟨pieces, hrest, rfl⟩ := map_cons_eq_some_iff.mp h
    obtain ⟨body, hcut, rfl⟩ := ih hrest
    obtain ⟨ha, hb, hc, hd⟩ := isHexDigit_four_iff.mp hhex
    exact ⟨_, .cons (Piece.writes_unit ha hb hc hd) hcut, rfl⟩
  | case4 => cases h
  | case5 c rest _ e he ih =>
    obtain ⟨pieces, hrest, rfl⟩ := map_cons_eq_some_iff.mp h
    obtain ⟨body, hcut, rfl⟩ := ih hrest
    exact ⟨_, .cons (.short (shortEscape?_eq_some_iff.mp he)) hcut, rfl⟩
  | case6 => cases h
  | case7 => cases h
  | case8 c rest hquote _ hslash hlone ih =>
    obtain ⟨pieces, hrest, rfl⟩ := map_cons_eq_some_iff.mp h
    obtain ⟨body, hcut, rfl⟩ := ih hrest
    have hc : c ≠ '\\' := by
      intro hc
      obtain ⟨d, more, hmore⟩ := List.exists_cons_of_ne_nil
        (show body ++ '"' :: behind ≠ [] by simp)
      exact hslash d more hc hmore
    exact ⟨_, .cons (.plain hquote hc) hcut, rfl⟩

/-- **The decoder's scan**: the one cut of what stands in front of the first
quote that is not escaped. -/
theorem pieces?_eq_some_iff {text behind : List Char} {pieces : List Piece} :
    pieces? text = some (pieces, behind) ↔
      ∃ body, CutInto body pieces ∧ text = body ++ '"' :: behind := by
  constructor
  · exact pieces?_sound
  · rintro ⟨body, hcut, rfl⟩
    exact pieces?_append hcut behind

/-! ## 4. The lexer's scan -/

/-- **The two scans agree**: the lexer takes the bodies that can be cut. -/
theorem isBody_iff {body : List Char} : Quoted.IsBody body ↔ ∃ pieces, CutInto body pieces := by
  constructor
  · intro h
    induction h with
    | nil => exact ⟨[], .nil⟩
    | plain hquote hslash _ ih =>
      obtain ⟨pieces, hcut⟩ := ih
      exact ⟨_, .cons (.plain hquote hslash) hcut⟩
    | short he _ ih =>
      obtain ⟨pieces, hcut⟩ := ih
      exact ⟨_, .cons (.short he) hcut⟩
    | unicode ha hb hc hd _ ih =>
      obtain ⟨pieces, hcut⟩ := ih
      exact ⟨_, .cons (Piece.writes_unit ha hb hc hd) hcut⟩
  · rintro ⟨pieces, hcut⟩
    induction hcut with
    | nil => exact .nil
    | cons hpiece _ ih =>
      cases hpiece with
      | plain hquote hslash => exact .plain hquote hslash ih
      | short he => exact .short he ih
      | unit ha hb hc hd => exact .unicode ⟨_, ha⟩ ⟨_, hb⟩ ⟨_, hc⟩ ⟨_, hd⟩ ih

/-! ## 5. What stands in a body -/

/-- Four hex digits are a number of sixteen bits. -/
theorem CutInto.unit_lt {body : List Char} {pieces : List Piece} {value : Nat}
    (h : CutInto body pieces) (hvalue : .unit value ∈ pieces) : value < 0x10000 := by
  induction h with
  | nil => cases hvalue
  | cons hpiece _ ih =>
    rcases List.mem_cons.mp hvalue with rfl | hrest
    · cases hpiece with
      | unit ha hb hc hd =>
        have := ha.1
        have := hb.1
        have := hc.1
        have := hd.1
        omega
    · exact ih hrest

/-- An escape is written without control characters. -/
theorem Piece.Writes.forall_iff {piece : Piece} {chunk : List Char} (h : piece.Writes chunk) :
    (∀ c ∈ chunk, ' ' ≤ c) ↔ ∀ c, piece = .plain c → ' ' ≤ c := by
  cases h with
  | plain => simp
  | @short c e he =>
    have hc : ' ' ≤ c := by cases he <;> decide
    have hslash : ' ' ≤ '\\' := by decide
    simp [hc, hslash]
  | unit ha hb hc hd =>
    have hdigit : ∀ n < 16, ' ' ≤ n.digitChar ∧ ' ' ≤ n.digitChar.toUpper := by decide
    have hhex {c : Char} {n : Nat} (h : IsHexOf c n) : ' ' ≤ c := by
      obtain ⟨hn, rfl | rfl⟩ := h
      · exact (hdigit n hn).1
      · exact (hdigit n hn).2
    have hslash : ' ' ≤ '\\' := by decide
    have hu : ' ' ≤ 'u' := by decide
    simp [hslash, hu, hhex ha, hhex hb, hhex hc, hhex hd]

/-- The control characters of a body are those of its pieces that stand for
themselves. -/
theorem CutInto.forall_iff {body : List Char} {pieces : List Piece} (h : CutInto body pieces) :
    (∀ c ∈ body, ' ' ≤ c) ↔ ∀ c, .plain c ∈ pieces → ' ' ≤ c := by
  induction h with
  | nil => simp
  | cons hpiece _ ih =>
    simp only [List.forall_mem_append, hpiece.forall_iff, ih, List.mem_cons, or_imp, forall_and,
      eq_comm]

end ScimQuery.Decoding
