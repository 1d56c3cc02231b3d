/-
ScimQuery.Proofs.Parsing.Phrase — what the phrases without choice parse.

A phrase succeeds exactly over its own tokens. Where it could go on, the
description also says what does not follow: an attribute path without a
sub-attribute has no dot behind it. A test has a space behind its path, so
for tests the condition is gone.

Groups and brackets are described over what encloses them (`Encloses`): the
contents are parsed one level deeper, and the way up restores the depth, so
that a whole group or bracket leaves no trace of it.
-/
import ScimQuery.Parsing.Phrase
import ScimQuery.Proofs.Parsing.Stream
import ScimQuery.Proofs.Spelling

namespace ScimQuery.Parse

open TokenStream

variable {α : Type} {s s' : TokenStream}

/-! ## 1. Attribute paths -/

theorem attributeName_eq_ok_iff {name : String} :
    attributeName s = .ok name s' ↔ s.Over [.attribute name] s' := by
  unfold attributeName
  rw [current_bind, over_singleton]
  cases s.current with
  | «attribute» name' => simp [pure_eq_ok_iff, eq_comm (a := name)]
  | _ => simp

theorem subAttribute_eq_ok_iff {sub : Option String} :
    subAttribute s = .ok sub s' ↔
      s.Over (subTokens sub) s' ∧ (sub = none → s'.current ≠ .dot) := by
  unfold subAttribute
  rw [accept_bind]
  by_cases hdot : s.current = .dot
  · simp only [hdot, if_true, bind_eq_ok_iff, attributeName_eq_ok_iff, pure_eq_ok_iff]
    cases sub with
    | none =>
      constructor
      · intro h
        obtain ⟨name, m, -, hsub, -⟩ := h
        cases hsub
      · intro h
        obtain ⟨hover, hnot⟩ := h
        rw [over_nil.mp hover] at hnot
        exact absurd hdot (hnot rfl)
    | some name =>
      rw [subTokens, over_cons, hdot]
      constructor
      · intro h
        obtain ⟨_, m, hover, ⟨⟩, rfl⟩ := h
        exact ⟨⟨rfl, by simp, hover⟩, by simp⟩
      · intro h
        obtain ⟨⟨-, -, hover⟩, -⟩ := h
        exact ⟨name, s', hover, rfl, rfl⟩
  · simp only [hdot, if_false, Bool.false_eq_true, pure_eq_ok_iff]
    cases sub with
    | none =>
      simp only [subTokens, over_nil, true_and]
      constructor
      · rintro rfl
        exact ⟨rfl, fun _ => hdot⟩
      · exact And.left
    | some name =>
      simp [subTokens, over_cons, hdot]

theorem schema_eq_ok_iff {urn : Option String} :
    schema s = .ok urn s' ↔
      s.Over (schemaTokens urn) s' ∧ (urn = none → ∃ name, s'.current = .attribute name) := by
  unfold schema
  rw [current_bind]
  cases urn with
  | none =>
    have hend : (s.Over (schemaTokens none) s' ∧
        ((none : Option String) = none → ∃ name, s'.current = .attribute name)) ↔
        (∃ name, s.current = .attribute name) ∧ s' = s := by
      simp only [schemaTokens, over_nil, true_imp_iff]
      constructor
      · intro h
        obtain ⟨rfl, hname⟩ := h
        exact ⟨hname, rfl⟩
      · intro h
        obtain ⟨hname, rfl⟩ := h
        exact ⟨rfl, hname⟩
    rw [hend]
    cases s.current <;> simp [map_eq_ok_iff, pure_eq_ok_iff]
  | some urn =>
    simp only [schemaTokens, over_cons, over_nil]
    cases s.current <;>
      simp [map_eq_ok_iff, require_eq_ok_iff, pure_eq_ok_iff, and_comm]

/-- An attribute path, and no dot behind it that could go on. -/
theorem attributePath_eq_ok_iff {path : AttributePath} :
    attributePath s = .ok path s' ↔
      s.Over path.tokens s' ∧ (path.sub = none → s'.current ≠ .dot) := by
  obtain ⟨urn, name, sub⟩ := path
  simp only [attributePath, bind_eq_ok_iff, schema_eq_ok_iff, attributeName_eq_ok_iff,
    subAttribute_eq_ok_iff, pure_eq_ok_iff, AttributePath.tokens, AttributePath.mk.injEq]
  constructor
  · intro h
    obtain ⟨_, m, ⟨hschema, -⟩, _, m', hname, _, m'', ⟨hsub, hdot⟩, ⟨rfl, rfl, rfl⟩, rfl⟩ := h
    obtain ⟨hcurrent, hne, rfl⟩ := over_singleton.mp hname
    exact ⟨over_append.mpr ⟨m, hschema, hcurrent, hne, hsub⟩, hdot⟩
  · intro h
    obtain ⟨hover, hdot⟩ := h
    obtain ⟨m, hschema, hcurrent, hne, hsub⟩ := over_append.mp hover
    exact ⟨urn, m, ⟨hschema, fun _ => ⟨name, hcurrent⟩⟩, name, m.next,
      over_singleton.mpr ⟨hcurrent, hne, rfl⟩, sub, s', ⟨hsub, hdot⟩, ⟨rfl, rfl, rfl⟩, rfl⟩

/-! ## 2. Attribute tests -/

theorem comparison_eq_ok_iff {operator : Comparison} :
    comparison s = .ok operator s' ↔ s.Over [.keyword (.comparison operator)] s' := by
  unfold comparison
  rw [current_bind, over_singleton]
  cases s.current with
  | keyword keyword => cases keyword <;> simp [pure_eq_ok_iff, eq_comm (a := operator)]
  | _ => simp

theorem ofToken?_eq_some_iff {token : Token} {l : Literal} :
    Literal.ofToken? token = some l ↔ token = l.token := by
  unfold Literal.ofToken?
  split
  · cases l <;> simp [Literal.token]
  · cases l <;> simp [Literal.token]
  · cases l <;> simp [Literal.token]
  · rename_i hconstant hnumber hstring
    cases l with
    | constant value => simpa [Literal.token] using hconstant value
    | number text => simpa [Literal.token] using hnumber text
    | string text => simpa [Literal.token] using hstring text

theorem literal_eq_ok_iff {l : Literal} : literal s = .ok l s' ↔ s.Over [l.token] s' := by
  unfold literal
  rw [current_bind, over_singleton, ← ofToken?_eq_some_iff]
  cases Literal.ofToken? s.current with
  | none => simp
  | some l' => simp [pure_eq_ok_iff, l.token_ne_eof, eq_comm (a := l)]

/-- A test of the path, over what stands behind the path. -/
theorem testOf_eq_ok_iff {path : AttributePath} {test : AttributeTest} :
    testOf path s = .ok test s' ↔ test.path = path ∧ s.Over test.tail s' := by
  unfold testOf
  rw [require_bind_eq_ok_iff, accept_bind]
  by_cases hpresent : s.next.current = .keyword .present
  · simp only [hpresent, if_true, pure_eq_ok_iff]
    cases test with
    | present path' =>
      simp only [AttributeTest.path, AttributeTest.tail, over_cons, over_nil, hpresent,
        AttributeTest.present.injEq]
      simp [and_left_comm]
    | compare path' operator l => simp [AttributeTest.tail, over_cons, hpresent]
  · simp only [hpresent, if_false, Bool.false_eq_true, bind_eq_ok_iff, require_eq_ok_iff,
      comparison_eq_ok_iff, literal_eq_ok_iff, pure_eq_ok_iff]
    cases test with
    | present path' => simp [AttributeTest.tail, over_cons, hpresent]
    | compare path' operator l =>
      simp only [AttributeTest.path, AttributeTest.tail, over_cons, over_nil,
        AttributeTest.compare.injEq]
      constructor
      · intro h
        obtain ⟨hspace, _, m, ⟨hop, -, rfl⟩, _, m', ⟨hspace', rfl⟩, _, m'', ⟨hl, hne, rfl⟩,
          ⟨rfl, rfl, rfl⟩, rfl⟩ := h
        exact ⟨rfl, hspace, by simp, hop, by simp, hspace', by simp, hl, hne, rfl⟩
      · intro h
        obtain ⟨rfl, hspace, -, hop, hne, hspace', -, hl, hne', rfl⟩ := h
        exact ⟨hspace, operator, _, ⟨hop, hne, rfl⟩, (), _, ⟨hspace', rfl⟩, l, _,
          ⟨hl, hne', rfl⟩, ⟨rfl, rfl, rfl⟩, rfl⟩

/-- A test has a space behind its path. -/
theorem current_of_over_tail {test : AttributeTest} (h : s.Over test.tail s') :
    s.current = .space := by
  cases test <;> exact (over_cons.mp h).1

/-- A test, over its tokens. -/
theorem attributeTest_eq_ok_iff {test : AttributeTest} :
    attributeTest s = .ok test s' ↔ s.Over test.tokens s' := by
  simp only [attributeTest, bind_eq_ok_iff, attributePath_eq_ok_iff, testOf_eq_ok_iff,
    AttributeTest.tokens, over_append]
  constructor
  · intro h
    obtain ⟨_, m, ⟨hpath, -⟩, rfl, htail⟩ := h
    exact ⟨m, hpath, htail⟩
  · intro h
    obtain ⟨m, hpath, htail⟩ := h
    refine ⟨_, m, ⟨hpath, fun _ => ?_⟩, rfl, htail⟩
    rw [current_of_over_tail htail]
    simp

/-! ## 3. Operands -/

theorem connective_eq_ok_iff {c : Connective} :
    connective s = .ok c s' ↔ s.Over [.keyword (.connective c)] s' := by
  unfold connective
  rw [current_bind, over_singleton]
  cases s.current with
  | keyword keyword => cases keyword <;> simp [pure_eq_ok_iff, eq_comm (a := c)]
  | _ => simp

/-- What stands in front of the parenthesis of a group, up to it. -/
theorem negation_eq_ok_iff {negated : Bool} :
    negation s = .ok negated s' ↔
      s'.current = .openParen ∧ ∃ front, Opens negated (front ++ [.openParen]) ∧
        s.Over front s' := by
  have hparen {m : TokenStream} {b : Bool} :
      (ensure .openParen >>= fun _ => (pure b : Parse Bool)) m = .ok negated s' ↔
        s'.current = .openParen ∧ negated = b ∧ s' = m := by
    rw [ensure_bind_eq_ok_iff, pure_eq_ok_iff]
    constructor
    · intro h
      obtain ⟨hopen, rfl, rfl⟩ := h
      exact ⟨hopen, rfl, rfl⟩
    · intro h
      obtain ⟨hopen, rfl, rfl⟩ := h
      exact ⟨hopen, rfl, rfl⟩
  unfold negation
  rw [accept_bind]
  by_cases hnot : s.current = .keyword .negation
  · simp only [hnot, if_true]
    rw [accept_bind]
    by_cases hspace : s.next.current = .space
    · simp only [hspace, if_true, hparen, opens_append_iff]
      refine and_congr_right fun hopen => ?_
      constructor
      · intro h
        obtain ⟨rfl, rfl⟩ := h
        exact ⟨_, .inr (.inr ⟨rfl, rfl⟩), by simp [over_cons, hnot, hspace]⟩
      · intro h
        obtain ⟨front, ⟨rfl, rfl⟩ | ⟨rfl, rfl⟩ | ⟨rfl, rfl⟩, hover⟩ := h
        · simp [over_nil.mp hover, hnot] at hopen
        · simp [(over_singleton.mp hover).2.2, hspace] at hopen
        · simp only [over_cons, over_nil] at hover
          exact ⟨rfl, hover.2.2.2.2⟩
    · simp only [hspace, if_false, hparen, opens_append_iff]
      refine and_congr_right fun hopen => ?_
      constructor
      · intro h
        obtain ⟨rfl, rfl⟩ := h
        exact ⟨_, .inr (.inl ⟨rfl, rfl⟩), by simp [over_cons, hnot]⟩
      · intro h
        obtain ⟨front, ⟨rfl, rfl⟩ | ⟨rfl, rfl⟩ | ⟨rfl, rfl⟩, hover⟩ := h
        · simp [over_nil.mp hover, hnot] at hopen
        · exact ⟨rfl, (over_singleton.mp hover).2.2⟩
        · simp [over_cons, hspace] at hover
  · simp only [hnot, if_false, Bool.false_eq_true, hparen, opens_append_iff]
    refine and_congr_right fun hopen => ?_
    constructor
    · intro h
      obtain ⟨rfl, rfl⟩ := h
      exact ⟨_, .inl ⟨rfl, rfl⟩, rfl⟩
    · intro h
      obtain ⟨front, ⟨rfl, rfl⟩ | ⟨rfl, rfl⟩ | ⟨rfl, rfl⟩, hover⟩ := h
      · exact ⟨rfl, hover⟩
      · exact absurd (over_cons.mp hover).1 hnot
      · exact absurd (over_cons.mp hover).1 hnot

end ScimQuery.Parse
