/-
ScimQuery.Proofs.CheckedLiterals — literals that are checked before they are put
into a query.

A text is a literal of its own if it is read as one token that is a literal, with
the end behind it. Such a token is well formed and its text is the whole text
(`Literal.ofText_eq_ok_iff_ofText`), so what is accepted are the constants, the
numbers of JSON and the quoted strings, and nothing around them. These are the
literals of the grammar (`Literal.ofText_eq_ok_iff_derives`). Put behind an attribute path and a
comparison a checked literal therefore derives the comparison, and a query has no
other tree: nothing in the literal can be taken for more of the query.
-/
import ScimQuery.Proofs.Composition
import ScimQuery.Proofs.EntryPoints

namespace ScimQuery

open Token

/-! ## 1. One token -/

/-- A literal is read back from its text alone. -/
theorem Literal.readable_singleton_iff {l : Literal} :
    Readable [l.token] ↔ l.token.IsWellFormed :=
  ⟨fun h => h.2.1.isWellFormed,
    fun hwell => ⟨l.token_ne_eof, readsBefore_literal hwell closes_nil, trivial⟩⟩

/-! ## 2. Checked literals -/

variable {text : String} {l : Literal}

/-- The literal of a text is the one token that it is read as. -/
theorem Literal.ofText_eq_ok_iff_ofText :
    Literal.ofText text = .ok l ↔
      ∃ offset, Token.ofText text = .ok [⟨0, l.token⟩, ⟨offset, .eof⟩] := by
  unfold Literal.ofText
  cases hread : Token.ofText text with
  | error error => simp
  | ok located =>
    obtain ⟨tokens, hreadable, -, rfl⟩ := Token.ofText_eq_ok_iff.mp hread
    match tokens, hreadable with
    | [], _ => simp [locate]
    | [token], _ =>
      simp only [locate, Except.ok.injEq, List.cons.injEq, Located.mk.injEq, true_and, and_true,
        if_true, exists_eq_right']
      rw [← Parse.ofToken?_eq_some_iff]
      cases ofToken? token <;> simp
    | token :: next :: rest, hreadable =>
      have hnext : next ≠ .eof := hreadable.2.2.1
      simp only [locate, Except.ok.injEq, List.cons.injEq, Located.mk.injEq, hnext, if_false]
      cases ofToken? token <;> simp

/-- **A text is a literal if it derives one.** -/
theorem Literal.ofText_eq_ok_iff_derives : Literal.ofText text = .ok l ↔ l.Derives text := by
  rw [ofText_eq_ok_iff_ofText, derives_iff]
  simp only [ofText_eq_single_iff, readable_singleton_iff, Writes, allWellFormed_cons,
    allWellFormed_nil, and_true, textOf_cons, textOf_nil, String.append_empty]
  constructor
  · intro h
    obtain ⟨_, hwell, htext, -⟩ := h
    exact ⟨hwell, htext⟩
  · intro h
    obtain ⟨hwell, htext⟩ := h
    exact ⟨_, hwell, htext, rfl⟩

/-- A derived literal is written with the text that derives it. -/
theorem Literal.Derives.text_eq (h : l.Derives text) : l.text = text := by
  cases h <;> rfl

/-- The texts of literals. -/
theorem Literal.exists_derives_iff :
    (∃ l : Literal, l.Derives text) ↔ text = "false" ∨ text = "null" ∨ text = "true" ∨
      Number.IsNumber text.toList ∨ Quoted.IsQuoted text.toList := by
  constructor
  · rintro ⟨l, hl⟩
    cases hl with
    | constant value => cases value <;> simp [Constant.word]
    | number hnumber => exact .inr (.inr (.inr (.inl hnumber)))
    | string hstring => exact .inr (.inr (.inr (.inr hstring)))
  · rintro (rfl | rfl | rfl | hnumber | hstring)
    · exact ⟨_, .constant .false⟩
    · exact ⟨_, .constant .null⟩
    · exact ⟨_, .constant .true⟩
    · exact ⟨_, .number hnumber⟩
    · exact ⟨_, .string hstring⟩

/-! ## 3. In a query -/

/-- A literal behind an attribute path and a comparison is that comparison. -/
theorem Filter.ofText_compare {front : String} {pathSettings settings : ParseSettings}
    {path : AttributePath} (hpath : Path.ofText front pathSettings = .ok (.attribute path))
    (operator : Comparison) (hl : l.Derives text) :
    Filter.ofText (front ++ " " ++ operator.word ++ " " ++ text) settings =
      .ok (single (.test (.compare path operator l))) := by
  obtain ⟨hderives, -⟩ := Path.ofText_eq_ok_iff_derives.mp hpath
  cases hderives with
  | «attribute» hfront =>
    exact ofText_eq_ok_iff_derives.mpr
      ⟨.one (.one (.leaf (.test (.compare hfront hl)))), Nat.zero_le _⟩

/-- **Checked literals.** A text is accepted as a literal if it is a constant, a
number of JSON or a quoted string, and nothing else. The literal is of that kind
and is written with that text. Behind every attribute path and every comparison,
under any settings, it makes the text of that comparison and of nothing more. -/
theorem Literal.ofText_checked (text : String) :
    ((∃ l, Literal.ofText text = .ok l) ↔ text = "false" ∨ text = "null" ∨ text = "true" ∨
      Number.IsNumber text.toList ∨ Quoted.IsQuoted text.toList) ∧
    (∀ l, Literal.ofText text = .ok l ↔ l.Derives text) ∧
    ∀ l, Literal.ofText text = .ok l → l.text = text ∧
      ∀ front pathSettings path operator settings,
        Path.ofText front pathSettings = .ok (.attribute path) →
        Filter.ofText (front ++ " " ++ Comparison.word operator ++ " " ++ text) settings =
          .ok (Filter.single (.test (.compare path operator l))) := by
  have hderives (l : Literal) : Literal.ofText text = .ok l ↔ l.Derives text :=
    ofText_eq_ok_iff_derives
  refine ⟨?_, hderives, fun l hl => ?_⟩
  · simp only [hderives]
    exact exists_derives_iff
  · have hl := (hderives l).mp hl
    exact ⟨hl.text_eq, fun front pathSettings path operator settings hpath =>
      Filter.ofText_compare hpath operator hl⟩

/-- A string with a quote and the word `or` in it, behind a path with a schema. The
same text without its last quote is no literal. -/
theorem Literal.ofText_checked_or :
    Literal.ofText "\"a\\\" or b\"" = .ok (.string "\"a\\\" or b\"") ∧
    (¬ ∃ l, Literal.ofText "\"a\\\" or b" = .ok l) ∧
    Path.ofText "urn:ab:c.d:e" ⟨.lookahead, 0⟩ = .ok (.attribute ⟨some "urn:ab:c.d", "e", none⟩) ∧
    Filter.ofText "urn:ab:c.d:e eq \"a\\\" or b\"" ⟨.orderedChoice, 0⟩ =
      .ok (Filter.single (.test (.compare ⟨some "urn:ab:c.d", "e", none⟩ .equal
        (.string "\"a\\\" or b\"")))) := by
  have hliteral : Literal.ofText "\"a\\\" or b\"" = .ok (.string "\"a\\\" or b\"") := by decide
  have hopen : Literal.ofText "\"a\\\" or b" = .error ⟨.quoteMissing, 9⟩ := by decide
  have hpath : Path.ofText "urn:ab:c.d:e" ⟨.lookahead, 0⟩ =
      .ok (.attribute ⟨some "urn:ab:c.d", "e", none⟩) := by
    have hname : AttributeName.IsFree "e" := ⟨by decide, by decide⟩
    have hderives : AttributePath.Derives (("urn:ab:c.d" ++ ":") ++ "e" ++ "")
        ⟨some "urn:ab:c.d", "e", none⟩ := .mk (.some (by decide)) hname .none
    rw [show ("urn:ab:c.d" ++ ":") ++ "e" ++ "" = "urn:ab:c.d:e" by decide] at hderives
    exact Path.ofText_eq_ok_iff_derives.mpr ⟨.attribute hderives, Nat.le_refl 0⟩
  obtain ⟨-, -, hspliced⟩ := Literal.ofText_checked "\"a\\\" or b\""
  have hquery := (hspliced _ hliteral).2 _ _ _ .equal ⟨.orderedChoice, 0⟩ hpath
  rw [show "urn:ab:c.d:e" ++ " " ++ Comparison.equal.word ++ " " ++ "\"a\\\" or b\"" =
    "urn:ab:c.d:e eq \"a\\\" or b\"" by decide] at hquery
  exact ⟨hliteral, by simp [hopen], hpath, hquery⟩

end ScimQuery
