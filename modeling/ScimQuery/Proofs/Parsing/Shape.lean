/-
ScimQuery.Proofs.Parsing.Shape — what conditions and paths parse, whichever
way their shape is found.

A condition is a test or filtered values, and a path may also be a mere
attribute path. All of them start with an attribute path, and the token
behind that (`BehindPath`) belongs to one shape only: a space to a test, a
bracket to filtered values, the end to an attribute path. So a strategy
needs no further description than that it succeeds if one of the shapes does
(`ReadsCondition`, `ReadsPath`).

What is read up to the end of the text is given by `ReadsWhole`.
-/
import ScimQuery.Proofs.Parsing.Combination

namespace ScimQuery.Parse

open TokenStream

variable {α : Type} {s s' : TokenStream} {stops : TokenStream → Prop}

/-! ## 1. Behind the attribute path -/

/-- The token stands behind the attribute path that the stream starts with. -/
def BehindPath (token : Token) (s : TokenStream) : Prop :=
  ∃ path m, attributePath s = .ok path m ∧ m.current = token

/-- There is one such token. -/
theorem BehindPath.unique {token token' : Token} (h : BehindPath token s)
    (h' : BehindPath token' s) : token = token' := by
  obtain ⟨path, m, hpath, rfl⟩ := h
  obtain ⟨path', m', hpath', rfl⟩ := h'
  rw [hpath, EStateM.Result.ok.injEq] at hpath'
  rw [hpath'.2]

theorem behindPath_of_attributeTest {test : AttributeTest} (h : attributeTest s = .ok test s') :
    BehindPath .space s := by
  simp only [attributeTest, bind_eq_ok_iff, testOf_eq_ok_iff] at h
  obtain ⟨path, m, hpath, -, hover⟩ := h
  exact ⟨path, m, hpath, current_of_over_tail hover⟩

theorem behindPath_of_map_attributeTest {f : AttributeTest → α} {a : α}
    (h : (f <$> attributeTest) s = .ok a s') : BehindPath .space s := by
  obtain ⟨test, htest, -⟩ := map_eq_ok_iff.mp h
  exact behindPath_of_attributeTest htest

theorem behindPath_of_valuePath {contents : Parse ValueFilter} {v : ValuePath}
    (h : valuePath contents s = .ok v s') : BehindPath .openBracket s := by
  rw [valuePath, bind_eq_ok_iff] at h
  obtain ⟨path, m, hpath, hvalues⟩ := h
  exact ⟨path, m, hpath, (ensure_bind_eq_ok_iff.mp hvalues).1⟩

/-! ## 2. Conditions -/

theorem parses_attributeTest : Parses attributeTest AttributeTest.Spells := by
  intro s test s' _
  simp [attributeTest_eq_ok_iff, AttributeTest.Spells]

/-- The tokens spell a condition that is nested `n` deep at most. -/
def ConditionWithin (n : Nat) (tokens : List Token) (c : Condition) : Prop :=
  c.Spells tokens ∧ c.nesting ≤ n

/-- The tokens spell a filter in brackets of which `n` may be open at once. -/
def FilterBelow (n : Nat) : List Token → ValueFilter → Prop :=
  Disjunction.SpellsBelow AttributeTest.Spells (fun _ => 0) n

/-- Filtered values are nested one level deeper than their filter. -/
theorem valuesSpell_filterBelow_iff {n : Nat} {tokens : List Token} {v : ValuePath} :
    ValuesSpell (FilterBelow n) tokens v ↔ v.Spells tokens ∧ v.nesting ≤ n := by
  constructor
  · intro h
    obtain ⟨inner, ⟨hinner, hsize⟩, htokens⟩ := h
    exact ⟨⟨inner, hinner, htokens⟩, hsize⟩
  · intro h
    obtain ⟨⟨inner, hinner, htokens⟩, hsize⟩ := h
    exact ⟨inner, ⟨hinner, hsize⟩, htokens⟩

/-- A condition is read in one of its two shapes. -/
def ReadsCondition (contents : Parse ValueFilter) (s : TokenStream) (c : Condition)
    (s' : TokenStream) : Prop :=
  (∃ test, attributeTest s = .ok test s' ∧ .test test = c) ∨
    ∃ v, valuePath contents s = .ok v s' ∧ .values v = c

/-- **A condition is read over its tokens**, whichever shape it has. -/
theorem readsCondition_iff {n : Nat} {contents : Parse ValueFilter} {c : Condition}
    (hcontents : Encloses stops contents (FilterBelow n)) (hstops : StopsAtMark stops)
    (hs : s.Ended) :
    ReadsCondition contents s c s' ↔ ∃ tokens, s.Over tokens s' ∧ ConditionWithin n tokens c := by
  simp only [ReadsCondition, attributeTest_eq_ok_iff, parses_valuePath hcontents hstops hs,
    valuesSpell_filterBelow_iff]
  cases c with
  | test test =>
    simp only [Condition.test.injEq, exists_eq_right, reduceCtorEq, and_false, exists_false,
      or_false]
    constructor
    · exact fun hover => ⟨_, hover, rfl, Nat.zero_le _⟩
    · intro h
      obtain ⟨_, hover, rfl, -⟩ := h
      exact hover
  | values v =>
    simp only [Condition.values.injEq, exists_eq_right, reduceCtorEq, and_false, exists_false,
      false_or]
    rfl

/-! ## 3. Whole texts -/

/-- The parser gives the result and stops on the end of the text. -/
def ReadsWhole (parser : Parse α) (s : TokenStream) (a : α) : Prop :=
  ∃ m, parser s = .ok a m ∧ m.current = .eof

theorem require_eof_iff {β : Type} {parser : Parse α} {f : α → β} {b : β} :
    (∃ s', (parser >>= fun a => require .eof >>= fun _ => pure (f a)) s = .ok b s') ↔
      ∃ a, ReadsWhole parser s a ∧ f a = b := by
  simp only [bind_eq_ok_iff, require_eq_ok_iff, pure_eq_ok_iff, ReadsWhole]
  constructor
  · intro h
    obtain ⟨s', a, m, ha, _, _, ⟨heof, rfl⟩, rfl, rfl⟩ := h
    exact ⟨a, ⟨m, ha, heof⟩, rfl⟩
  · intro h
    obtain ⟨a, ⟨m, ha, heof⟩, rfl⟩ := h
    exact ⟨m.next, a, m, ha, (), m.next, ⟨heof, rfl⟩, rfl, rfl⟩

theorem readsWhole_iff_of_parses {parser : Parse α} {grammar : List Token → α → Prop} {a : α}
    (h : Parses parser grammar) (hs : s.Ended) :
    ReadsWhole parser s a ↔ ∃ tokens, s.Whole tokens ∧ grammar tokens a := by
  simp only [ReadsWhole, Whole, h hs]
  constructor
  · intro h'
    obtain ⟨m, ⟨tokens, hover, ha⟩, heof⟩ := h'
    exact ⟨tokens, ⟨m, hover, heof⟩, ha⟩
  · intro h'
    obtain ⟨tokens, ⟨m, hover, heof⟩, ha⟩ := h'
    exact ⟨m, ⟨tokens, hover, ha⟩, heof⟩

/-- The end of the text is no space, so whatever goes on may stop there. -/
theorem readsWhole_iff_of_parsesUntil {parser : Parse α} {grammar : List Token → α → Prop} {a : α}
    (h : ParsesUntil stops parser grammar) (hstops : StopsAtMark stops) (hs : s.Ended) :
    ReadsWhole parser s a ↔ ∃ tokens, s.Whole tokens ∧ grammar tokens a := by
  simp only [ReadsWhole, Whole, h hs]
  constructor
  · intro h'
    obtain ⟨m, ⟨tokens, hover, ha, -⟩, heof⟩ := h'
    exact ⟨tokens, ⟨m, hover, heof⟩, ha⟩
  · intro h'
    obtain ⟨tokens, ⟨m, hover, heof⟩, ha⟩ := h'
    exact ⟨m, ⟨tokens, hover, ha, hstops (by simp [heof])⟩, heof⟩

/-! ## 4. Paths -/

/-- Filtered values and what may follow them in a path. -/
def valuesAndSub (contents : Parse ValueFilter) : Parse Path := do
  let values ← valuePath contents
  let sub ← subAttribute
  return .values values sub

/-- A path is read in one of its three shapes. -/
def ReadsPath (contents : Parse ValueFilter) (s : TokenStream) (path : Path) : Prop :=
  ReadsWhole (valuesAndSub contents) s path ∨
    (∃ test, ReadsWhole attributeTest s test ∧ .test test = path) ∨
    ∃ a, ReadsWhole attributePath s a ∧ .attribute a = path

theorem behindPath_of_valuesAndSub {contents : Parse ValueFilter} {path : Path}
    (h : valuesAndSub contents s = .ok path s') : BehindPath .openBracket s := by
  rw [valuesAndSub, bind_eq_ok_iff] at h
  obtain ⟨v, m, hv, -⟩ := h
  exact behindPath_of_valuePath hv

theorem behindPath_of_attributePath {a : AttributePath} (h : ReadsWhole attributePath s a) :
    BehindPath .eof s := by
  obtain ⟨m, ha, heof⟩ := h
  exact ⟨a, m, ha, heof⟩

theorem readsWhole_valuesAndSub_iff {n : Nat} {contents : Parse ValueFilter} {path : Path}
    (hcontents : Encloses stops contents (FilterBelow n)) (hstops : StopsAtMark stops)
    (hs : s.Ended) :
    ReadsWhole (valuesAndSub contents) s path ↔
      ∃ v sub, .values v sub = path ∧ ∃ tokens, s.Whole (tokens ++ subTokens sub) ∧
        v.Spells tokens ∧ v.nesting ≤ n := by
  simp only [ReadsWhole, Whole, valuesAndSub, bind_eq_ok_iff, subAttribute_eq_ok_iff,
    pure_eq_ok_iff, parses_valuePath hcontents hstops hs, valuesSpell_filterBelow_iff, over_append]
  constructor
  · intro h
    obtain ⟨_, ⟨v, m, ⟨tokens, hover, hv⟩, sub, m', ⟨hsub, -⟩, rfl, rfl⟩, heof⟩ := h
    exact ⟨v, sub, rfl, tokens, ⟨_, ⟨m, hover, hsub⟩, heof⟩, hv⟩
  · intro h
    obtain ⟨v, sub, rfl, tokens, ⟨m', ⟨m, hover, hsub⟩, heof⟩, hv⟩ := h
    exact ⟨m', ⟨v, m, ⟨tokens, hover, hv⟩, sub, m', ⟨hsub, by simp [heof]⟩, rfl, rfl⟩, heof⟩

/-- **A path is read over its tokens**, whichever shape it has. -/
theorem readsPath_iff {n : Nat} {contents : Parse ValueFilter} {path : Path}
    (hcontents : Encloses stops contents (FilterBelow n)) (hstops : StopsAtMark stops)
    (hs : s.Ended) :
    ReadsPath contents s path ↔
      ∃ tokens, s.Whole tokens ∧ path.Spells tokens ∧ path.nesting ≤ n := by
  have htest (test : AttributeTest) :
      ReadsWhole attributeTest s test ↔ ∃ tokens, s.Whole tokens ∧ test.Spells tokens :=
    readsWhole_iff_of_parses parses_attributeTest hs
  have hattribute (a : AttributePath) :
      ReadsWhole attributePath s a ↔ s.Whole a.tokens := by
    simp only [ReadsWhole, Whole, attributePath_eq_ok_iff]
    constructor
    · intro h
      obtain ⟨m, ⟨hover, -⟩, heof⟩ := h
      exact ⟨m, hover, heof⟩
    · intro h
      obtain ⟨m, hover, heof⟩ := h
      exact ⟨m, ⟨hover, by simp [heof]⟩, heof⟩
  simp only [ReadsPath, readsWhole_valuesAndSub_iff hcontents hstops hs, htest, hattribute]
  cases path with
  | «attribute» a =>
    simp [Path.Spells, Path.nesting]
  | values v sub =>
    simp only [Path.values.injEq, reduceCtorEq, and_false, exists_false, or_false, Path.Spells,
      Path.nesting]
    constructor
    · intro h
      obtain ⟨_, _, ⟨rfl, rfl⟩, tokens, hwhole, hv, hsize⟩ := h
      exact ⟨_, hwhole, ⟨tokens, hv, rfl⟩, hsize⟩
    · intro h
      obtain ⟨_, hwhole, ⟨tokens, hv, rfl⟩, hsize⟩ := h
      exact ⟨v, sub, ⟨rfl, rfl⟩, tokens, hwhole, hv, hsize⟩
  | test test =>
    simp [Path.Spells, Path.nesting]

end ScimQuery.Parse
