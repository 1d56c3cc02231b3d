/-
ScimQuery.Proofs.Lexemes.SchemaUrn — the characters of a URN.

A valid URN is written with the characters of a namestring only
(`isNamestring_of_isValid`), so a scan over a word runs through the whole of
it. Whether a text tries to be a URN depends on its first four characters
(`isAttempt_take`, `isAttempt_append`), and none of the four ends a scan
early.
-/
import ScimQuery.Proofs.Lexemes.Scan
import ScimQuery.SchemaUrn

namespace ScimQuery

open CharClass

/-! ## 1. Classes within classes -/

namespace CharClass

theorem isPchar_of_isPlainPchar {c : Char} (h : isPlainPchar c = true) : isPchar c = true := by
  simp [isPchar, h]

theorem isPchar_of_isHexDigit {c : Char} (h : isHexDigit c = true) : isPchar c = true := by
  simp [isPchar, h]

theorem isNamestring_of_isPchar {c : Char} (h : isPchar c = true) : isNamestring c = true := by
  simp [isNamestring, isNss, h]

theorem isNamestring_of_isNid {c : Char} (h : isNid c = true) : isNamestring c = true := by
  simp [isNamestring, h]

theorem isNamestring_of_isAlpha {c : Char} (h : c.isAlpha = true) : isNamestring c = true :=
  isNamestring_of_isNid (by simp [isNid, h])

theorem isRun_of_isNamestring {c : Char} (h : isNamestring c = true) : isRun c = true := by
  simp [isRun, h]

theorem isRun_of_isNameChar {c : Char} (h : isNameChar c = true) : isRun c = true := by
  simp [isRun, h]

theorem isNameChar_of_isAlpha {c : Char} (h : c.isAlpha = true) : isNameChar c = true := by
  simp [isNameChar, h]

theorem isJoint_iff {c : Char} : isJoint c = true ↔ c = '(' ∨ c = ')' ∨ c = '.' := by
  simp [isJoint, or_assoc]

/-- No character of a name is a joint. -/
theorem not_isJoint_of_isNameChar {c : Char} (h : isNameChar c = true) : isJoint c = false := by
  rw [← Bool.not_eq_true, isJoint_iff]
  rintro (rfl | rfl | rfl) <;> exact absurd h (by decide)

/-- No character of a name is a colon. -/
theorem ne_colon_of_isNameChar {c : Char} (h : isNameChar c = true) : c ≠ ':' := by
  rintro rfl
  exact absurd h (by decide)

end CharClass

namespace SchemaUrn

/-! ## 2. Attempts -/

/-- A character is a letter if its lower case is. -/
theorem isAlpha_of_toLower {c d : Char} (hd : d.isLower = true) (hc : c.toLower = d) :
    c.isAlpha = true := by
  unfold Char.toLower at hc
  show (c.isUpper || c.isLower) = true
  split at hc
  · rename_i hupper
    have : c.isUpper = true := decide_eq_true hupper
    simp [this]
  · simp [hc, hd]

/-- An attempt starts with three letters and a colon. -/
theorem exists_of_isAttempt {text : List Char} (h : isAttempt text = true) :
    ∃ u r n rest, text = u :: r :: n :: ':' :: rest ∧
      u.isAlpha = true ∧ r.isAlpha = true ∧ n.isAlpha = true := by
  unfold isAttempt at h
  split at h
  · rename_i u r n rest
    simp only [Bool.and_eq_true, beq_iff_eq] at h
    obtain ⟨⟨hu, hr⟩, hn⟩ := h
    exact ⟨u, r, n, rest, rfl, isAlpha_of_toLower (by decide) hu,
      isAlpha_of_toLower (by decide) hr, isAlpha_of_toLower (by decide) hn⟩
  · cases h

/-- Four characters decide about an attempt. -/
theorem isAttempt_take (text : List Char) : isAttempt (text.take 4) = isAttempt text := by
  rcases text with _ | ⟨a, _ | ⟨b, _ | ⟨c, _ | ⟨d, text⟩⟩⟩⟩ <;> try rfl
  by_cases hd : d = ':'
  · subst hd
    rfl
  · simp [isAttempt, hd]

/-- What follows an attempt does not change it. -/
theorem isAttempt_append {text : List Char} (h : isAttempt text = true) (rest : List Char) :
    isAttempt (text ++ rest) = true := by
  obtain ⟨u, r, n, tail, rfl, -⟩ := exists_of_isAttempt h
  exact h

/-- The first four characters of an attempt are no joints. -/
theorem not_isJoint_of_isAttempt {text : List Char} (h : isAttempt text = true) :
    ∀ c ∈ text.take 4, isJoint c = false := by
  obtain ⟨u, r, n, rest, rfl, hu, hr, hn⟩ := exists_of_isAttempt h
  have hletter {c : Char} (hc : c.isAlpha = true) : isJoint c = false :=
    not_isJoint_of_isNameChar (isNameChar_of_isAlpha hc)
  intro c hc
  simp only [List.take_succ_cons, List.take_zero, List.mem_cons, List.not_mem_nil,
    or_false] at hc
  rcases hc with rfl | rfl | rfl | rfl
  · exact hletter hu
  · exact hletter hr
  · exact hletter hn
  · decide

/-- A text without a colon is no attempt. -/
theorem not_isAttempt_of_colon {text : List Char} (h : ∀ c ∈ text, c ≠ ':') :
    isAttempt text = false := by
  rw [← Bool.not_eq_true]
  intro hattempt
  obtain ⟨u, r, n, rest, rfl, -⟩ := exists_of_isAttempt hattempt
  exact h ':' (by simp) rfl

/-! ## 3. The characters of a URN -/

theorem isPchar_or_of_isPcharRun {extra : Char → Bool} {text : List Char}
    (h : isPcharRun extra text = true) : ∀ c ∈ text, isPchar c = true ∨ extra c = true := by
  fun_induction isPcharRun extra text with
  | case1 => simp
  | case2 a b rest ih =>
    simp only [Bool.and_eq_true] at h
    obtain ⟨⟨ha, hb⟩, hrest⟩ := h
    simp only [List.mem_cons, forall_eq_or_imp]
    exact ⟨.inl (by decide), .inl (isPchar_of_isHexDigit ha), .inl (isPchar_of_isHexDigit hb),
      ih hrest⟩
  | case3 c rest _ ih =>
    simp only [Bool.and_eq_true, Bool.or_eq_true] at h
    obtain ⟨hc, hrest⟩ := h
    simp only [List.mem_cons, forall_eq_or_imp]
    exact ⟨hc.imp_left isPchar_of_isPlainPchar, ih hrest⟩

theorem isNamestring_of_isComponentText {text : List Char} (h : isComponentText text = true) :
    ∀ c ∈ text, isNamestring c = true := by
  intro c hc
  simp only [isComponentText, isPcharPiece, Bool.and_eq_true] at h
  rcases isPchar_or_of_isPcharRun h.2 c hc with hp | hextra
  · exact isNamestring_of_isPchar hp
  · simp only [Bool.or_eq_true, beq_iff_eq] at hextra
    rcases hextra with rfl | rfl <;> decide

theorem isNamestring_of_isSpecificString {text : List Char} (h : isSpecificString text = true) :
    ∀ c ∈ text, isNamestring c = true := by
  intro c hc
  simp only [isSpecificString, isPcharPiece, Bool.and_eq_true] at h
  rcases isPchar_or_of_isPcharRun h.2 c hc with hp | hextra
  · exact isNamestring_of_isPchar hp
  · simp only [beq_iff_eq] at hextra
    subst hextra
    decide

theorem isNamestring_of_isQuery {text : List Char} (h : isQuery text = true) :
    ∀ c ∈ text, isNamestring c = true := by
  unfold isQuery at h
  split at h
  · simp
  · simp only [List.mem_cons, forall_eq_or_imp]
    exact ⟨by decide, by decide, isNamestring_of_isComponentText h⟩
  · simp only [List.mem_cons, forall_eq_or_imp]
    exact ⟨by decide, by decide, isNamestring_of_isComponentText h⟩
  · cases h

theorem isNamestring_of_isFragment {text : List Char} (h : isFragment text = true) :
    ∀ c ∈ text, isNamestring c = true := by
  unfold isFragment at h
  split at h
  · simp
  · simp only [List.mem_cons, forall_eq_or_imp]
    exact ⟨by decide, isNamestring_of_isComponentText h⟩
  · cases h

theorem isNamestring_of_isNamespaceId {nid : List Char} (h : isNamespaceId nid = true) :
    ∀ c ∈ nid, isNamestring c = true := by
  intro c hc
  simp only [isNamespaceId, Bool.and_eq_true, List.all_eq_true] at h
  exact isNamestring_of_isNid (h.1.1.1.2 c hc)

/-- The cuts lose the colon behind the namespace identifier and nothing else. -/
theorem mem_parts {text : List Char} {c : Char} (hc : c ∈ text) :
    c ∈ (Parts.ofText text).nid ∨ c = ':' ∨ c ∈ (Parts.ofText text).nss ∨
      c ∈ (Parts.ofText text).query ∨ c ∈ (Parts.ofText text).fragment := by
  simp only [Parts.ofText]
  generalize hname : (text.dropWhile (· != ':')).drop 1 = name
  have hsplit : ∀ (p : Char → Bool) (l : List Char), c ∈ l →
      c ∈ l.takeWhile p ∨ c ∈ l.dropWhile p := by
    intro p l hl
    rwa [← List.takeWhile_append_dropWhile (p := p) (l := l), List.mem_append] at hl
  rcases hsplit (· != ':') text hc with h | h
  · exact .inl h
  · have hstop := stops_dropWhile (· != ':') text
    cases hdrop : text.dropWhile (· != ':') with
    | nil => simp [hdrop] at h
    | cons d rest =>
      rw [hdrop] at h hstop hname
      have hd : d = ':' := by simpa using hstop
      have hrest : rest = name := by simpa using hname
      rw [hrest, List.mem_cons] at h
      rcases h with rfl | h
      · exact .inr (.inl hd)
      · rcases hsplit (· != '#') name h with h | h
        · rcases hsplit (· != '?') _ h with h | h
          · exact .inr (.inr (.inl h))
          · exact .inr (.inr (.inr (.inl h)))
        · exact .inr (.inr (.inr (.inr h)))

/-- **A valid URN is written with the characters of a namestring.** -/
theorem isNamestring_of_isValid {urn : List Char} (h : isValid urn = true) :
    ∀ c ∈ urn, isNamestring c = true := by
  simp only [isValid, Bool.and_eq_true] at h
  obtain ⟨hattempt, hparts⟩ := h
  obtain ⟨u, r, n, rest, rfl, hu, hr, hn⟩ := exists_of_isAttempt hattempt
  simp only [Parts.isValid, List.drop_succ_cons, List.drop_zero, Bool.and_eq_true] at hparts
  obtain ⟨⟨⟨hnid, hnss⟩, hquery⟩, hfragment⟩ := hparts
  simp only [List.mem_cons, forall_eq_or_imp]
  refine ⟨isNamestring_of_isAlpha hu, isNamestring_of_isAlpha hr, isNamestring_of_isAlpha hn,
    by decide, fun c hc => ?_⟩
  rcases mem_parts hc with h | rfl | h | h | h
  · exact isNamestring_of_isNamespaceId hnid c h
  · decide
  · exact isNamestring_of_isSpecificString hnss c h
  · exact isNamestring_of_isQuery hquery c h
  · exact isNamestring_of_isFragment hfragment c h

theorem isAttempt_of_isValid {urn : List Char} (h : isValid urn = true) :
    isAttempt urn = true := by
  simp only [isValid, Bool.and_eq_true] at h
  exact h.1

end SchemaUrn

end ScimQuery
