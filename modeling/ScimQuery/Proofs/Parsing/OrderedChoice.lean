/-
ScimQuery.Proofs.Parsing.OrderedChoice — what the strategy that tries one
alternative after the other parses.

An alternative that fails takes its steps back, so all that counts is which
of them can succeed, and no two can: a group starts with another token than
a condition, and a test has another token behind its attribute path than
filtered values.

A row of operands stops where it cannot go on, and that is not the end of
the matter: a connective with a faulty operand behind it is given back, and
what encloses the row finds a space where it needs a closing mark. So a row
that stops too early is never part of a result. What is needed for that is
only that a row does stop where no space follows.
-/
import ScimQuery.Parsing.OrderedChoice
import ScimQuery.Proofs.Parsing.Alternatives

namespace ScimQuery.OrderedChoice

open Parse TokenStream

variable {α : Type} {s s' : TokenStream}

/-! ## 1. Combinations -/

/-- The choice succeeds exactly over the tokens that the grammar has for its
result. -/
def ParsesFirst (alternatives : List (Parse α)) (grammar : List Token → α → Prop) : Prop :=
  ∀ ⦃s a s'⦄, s.Ended → (firstOf alternatives s = .ok (some a) s' ↔
    ∃ tokens, s.Over tokens s' ∧ grammar tokens a)

theorem parses_operand {stops : TokenStream → Prop} {alternatives : List (Parse α)}
    {contents : Parse (Disjunction α)} {conditions : List Token → α → Prop}
    {grammar : List Token → Disjunction α → Prop} (hleaf : ParsesFirst alternatives conditions)
    (hstart : StartsWithPath conditions) (h : Encloses stops contents grammar)
    (hstops : StopsAtMark stops) :
    Parses (operand alternatives contents) (OperandSpells conditions grammar) := by
  intro s o s' hs
  rw [operand, bind_eq_ok_iff]
  constructor
  · intro h'
    obtain ⟨found, m, hfound, ho⟩ := h'
    cases found with
    | some a =>
      obtain ⟨rfl, rfl⟩ := pure_eq_ok_iff.mp ho
      obtain ⟨tokens, hover, ha⟩ := (hleaf hs).mp hfound
      exact ⟨tokens, hover, .inl ⟨a, rfl, ha⟩⟩
    | none =>
      obtain ⟨rfl, -⟩ := firstOf_eq_none_iff.mp hfound
      obtain ⟨tokens, hover, hgroup⟩ := (parses_group h hstops hs).mp ho
      exact ⟨tokens, hover, .inr hgroup⟩
  · intro h'
    obtain ⟨tokens, hover, ⟨a, rfl, ha⟩ | hgroup⟩ := h'
    · exact ⟨some a, s', (hleaf hs).mpr ⟨tokens, hover, ha⟩, rfl⟩
    · -- No alternative can succeed where a group starts.
      have hnone : firstOf alternatives s = .ok none s := by
        refine (firstOf_eq_none_or_some alternatives s).resolve_right ?_
        intro h'
        obtain ⟨a, m, hsome⟩ := h'
        obtain ⟨tokens', hover', ha⟩ := (hleaf hs).mp hsome
        exact (hstart.current ha hover').not_startsGroup (hgroup.current hover)
      exact ⟨none, s, hnone, (parses_group h hstops hs).mpr ⟨tokens, hover, hgroup⟩⟩

/-- Where the row of operands cannot go on. -/
def Stuck (operand : Parse (Operand α)) (s : TokenStream) : Prop :=
  ∀ pair m, continuation operand s ≠ .ok pair m

theorem continuation_eq_ok_iff {operand : Parse (Operand α)}
    {grammar : List Token → Operand α → Prop} (hoperand : Parses operand grammar) (hs : s.Ended)
    {connective : Connective} {o : Operand α} :
    continuation operand s = .ok (connective, o) s' ↔
      ∃ tokens, s.Over (connective.tokens ++ tokens) s' ∧ grammar tokens o := by
  rw [continuation, require_bind_eq_ok_iff, connective_bind_iff hoperand hs.next]
  constructor
  · intro h
    obtain ⟨hspace, _, _, ⟨⟩, tokens, hover, ho⟩ := h
    exact ⟨tokens, ⟨hspace, by decide, hover⟩, ho⟩
  · intro h
    obtain ⟨tokens, ⟨hspace, -, hover⟩, ho⟩ := h
    exact ⟨hspace, connective, o, rfl, tokens, hover, ho⟩

theorem stopsAtMark_stuck (operand : Parse (Operand α)) : StopsAtMark (Stuck operand) := by
  intro s hspace pair m h
  exact hspace (require_bind_eq_ok_iff.mp h).1

theorem steps_continuation {operand : Parse (Operand α)} {grammar : List Token → Operand α → Prop}
    (hoperand : Parses operand grammar) :
    Steps (Stuck operand) (orNone (continuation operand)) grammar := by
  constructor
  · intro s connective o s' hs
    rw [orNone_eq_some_iff, continuation_eq_ok_iff hoperand hs]
  · intro s s' _
    exact orNone_eq_none_iff

theorem combination_eq (alternatives : Nat → List (Parse α)) (levels : Nat) :
    combination alternatives levels =
      operands (operand (alternatives levels) (nested (combination alternatives) levels)) := by
  cases levels <;> rfl

/-- **A combination is parsed over its tokens**, up to a place that depends on
the levels left, if its conditions are. -/
theorem parsesUntil_combination {alternatives : Nat → List (Parse α)}
    {conditions : List Token → α → Prop} {size : α → Nat} (hstart : StartsWithPath conditions)
    (hleaf : ∀ n, ParsesFirst (alternatives n) fun tokens a => conditions tokens a ∧ size a ≤ n)
    (levels : Nat) :
    ∃ stops, StopsAtMark stops ∧ ParsesUntil stops (combination alternatives levels)
      (Disjunction.SpellsWithin conditions size levels) := by
  induction levels using Nat.strongRecOn with
  | ind levels ih =>
    obtain ⟨stops, hstops, hcontents⟩ := exists_encloses_nested ih
    have hoperand :=
      (parses_operand (hleaf levels) (hstart.and _) hcontents hstops).operandWithin
    rw [combination_eq]
    exact ⟨_, stopsAtMark_stuck _,
      ScimQuery.parsesUntil_combination hoperand (steps_continuation hoperand)⟩

/-- The operands of a combination are parsed over their tokens as well. -/
theorem parses_operandOf {alternatives : Nat → List (Parse α)}
    {conditions : List Token → α → Prop} {size : α → Nat} (hstart : StartsWithPath conditions)
    (hleaf : ∀ n, ParsesFirst (alternatives n) fun tokens a => conditions tokens a ∧ size a ≤ n)
    (levels : Nat) :
    Parses (operand (alternatives levels) (nested (combination alternatives) levels))
      (Operand.SpellsWithin conditions size levels) := by
  obtain ⟨stops, hstops, hcontents⟩ :=
    exists_encloses_nested fun n _ => parsesUntil_combination hstart hleaf n
  exact (parses_operand (hleaf levels) (hstart.and _) hcontents hstops).operandWithin

/-! ## 2. Filters -/

/-- The one alternative in brackets is a test, which is nested in no group. -/
theorem parsesFirst_valueTest (n : Nat) :
    ParsesFirst [attributeTest] fun tokens test => AttributeTest.Spells tokens test ∧ 0 ≤ n := by
  intro s test s' hs
  rw [firstOf_cons_eq_some_iff]
  simp [parses_attributeTest hs]

/-- A filter in brackets, up to a place that depends on the levels left. -/
theorem parsesUntil_valueFilter (levels : Nat) :
    ∃ stops, StopsAtMark stops ∧ ParsesUntil stops (valueFilter levels)
      (Disjunction.SpellsWithin AttributeTest.Spells (fun _ => 0) levels) :=
  parsesUntil_combination AttributeTest.startsWithPath parsesFirst_valueTest levels

/-- What stands in brackets. -/
theorem exists_encloses_valueFilter (levels : Nat) :
    ∃ stops, StopsAtMark stops ∧
      Encloses stops (nested valueFilter levels) (FilterBelow levels) :=
  exists_encloses_nested fun n _ => parsesUntil_valueFilter n

/-- The alternatives for a condition exclude each other. -/
theorem pairwise_excludes_conditions (levels : Nat) (s : TokenStream) :
    (conditions levels).Pairwise (Excludes s) := by
  have hvalues (c : Condition) (m : TokenStream)
      (h : (Condition.values <$> values levels) s = .ok c m) : BehindPath .openBracket s := by
    obtain ⟨v, hv, -⟩ := map_eq_ok_iff.mp h
    exact behindPath_of_valuePath hv
  have hexcludes : Excludes s (Condition.test <$> attributeTest) (.values <$> values levels) :=
    excludes_of_behindPath (by decide) (fun _ _ => behindPath_of_map_attributeTest) hvalues
  simpa [conditions] using hexcludes

/-- A condition is what the one alternative that succeeds gives. -/
theorem firstOf_conditions_iff {levels : Nat} {c : Condition} :
    firstOf (conditions levels) s = .ok (some c) s' ↔
      ReadsCondition (nested valueFilter levels) s c s' := by
  rw [firstOf_eq_some_iff_exists_mem (pairwise_excludes_conditions levels s)]
  simp only [conditions, List.mem_cons, List.not_mem_nil, or_false, exists_eq_or_imp,
    exists_eq_left, map_eq_ok_iff]
  rfl

theorem parsesFirst_conditions (levels : Nat) :
    ParsesFirst (conditions levels) (ConditionWithin levels) := by
  intro s c s' hs
  obtain ⟨stops, hstops, hcontents⟩ := exists_encloses_valueFilter levels
  rw [firstOf_conditions_iff, readsCondition_iff hcontents hstops hs]

/-- A filter, up to a place that depends on the levels left. -/
theorem parsesUntil_filter (levels : Nat) :
    ∃ stops, StopsAtMark stops ∧ ParsesUntil stops (filter levels)
      (Disjunction.SpellsWithin Condition.Spells Condition.nesting levels) :=
  parsesUntil_combination Condition.startsWithPath parsesFirst_conditions levels

/-! ## 3. Whole texts -/

/-- **A whole filter is read over its tokens.** -/
theorem wholeFilter_iff {levels : Nat} {filter : Filter} (hs : s.Ended) :
    (∃ s', wholeFilter levels s = .ok filter s') ↔
      ∃ tokens, s.Whole tokens ∧ Filter.Spells tokens filter ∧ filter.nesting ≤ levels := by
  obtain ⟨stops, hstops, hfilter⟩ := parsesUntil_filter levels
  rw [wholeFilter, require_eof_iff]
  simp only [exists_eq_right, readsWhole_iff_of_parsesUntil hfilter hstops hs]
  rfl

theorem wholePath_eq_ok_iff {levels : Nat} {path : Path} :
    (∃ s', wholePath levels s = .ok path s') ↔
      ∃ m, firstOf (paths levels) s = .ok (some path) m ∧ m.current = .eof := by
  simp only [wholePath, bind_eq_ok_iff]
  constructor
  · intro h
    obtain ⟨s', found, m, hfound, hpath⟩ := h
    cases found with
    | none => cases hpath
    | some p =>
      obtain ⟨heof, hpath⟩ := require_bind_eq_ok_iff.mp hpath
      obtain ⟨rfl, rfl⟩ := pure_eq_ok_iff.mp hpath
      exact ⟨m, hfound, heof⟩
  · intro h
    obtain ⟨m, hfound, heof⟩ := h
    exact ⟨m.next, some path, m, hfound, require_bind_eq_ok_iff.mpr ⟨heof, rfl⟩⟩

theorem behindPath_of_valuesPath {levels : Nat} {path : Path}
    (h : valuesPath levels s = .ok path s') : BehindPath .openBracket s :=
  behindPath_of_valuesAndSub h

/-- Filtered values and a test exclude each other. -/
theorem excludes_valuesPath_test (levels : Nat) (s : TokenStream) :
    Excludes s (valuesPath levels) (.test <$> attributeTest) :=
  excludes_of_behindPath (by decide) (fun _ _ => behindPath_of_valuesPath)
    (fun _ _ => behindPath_of_map_attributeTest)

/-- The alternatives that go on behind the attribute path. -/
def longerPaths (levels : Nat) : List (Parse Path) :=
  [valuesPath levels, .test <$> attributeTest]

theorem paths_eq (levels : Nat) :
    paths levels = longerPaths levels ++ [.attribute <$> attributePath] := rfl

/-- They exclude each other. The mere attribute path is in front of both of
them and excludes neither. -/
theorem pairwise_excludes_longerPaths (levels : Nat) (s : TokenStream) :
    (longerPaths levels).Pairwise (Excludes s) := by
  simpa [longerPaths] using excludes_valuesPath_test levels s

/-- The shapes that a path may be taken for. -/
theorem firstOf_paths_cases {levels : Nat} {path : Path}
    (h : firstOf (paths levels) s = .ok (some path) s') :
    valuesPath levels s = .ok path s' ∨
      (∃ test, attributeTest s = .ok test s' ∧ .test test = path) ∨
      ∃ a, attributePath s = .ok a s' ∧ .attribute a = path := by
  rcases firstOf_cons_eq_some_iff.mp h with hvalues | ⟨-, h⟩
  · exact .inl hvalues
  · rcases firstOf_cons_eq_some_iff.mp h with htest | ⟨-, h⟩
    · exact .inr (.inl (map_eq_ok_iff.mp htest))
    · rcases firstOf_cons_eq_some_iff.mp h with hattribute | ⟨-, h⟩
      · exact .inr (.inr (map_eq_ok_iff.mp hattribute))
      · exact absurd h firstOf_nil_ne_some

/-- An alternative that goes on behind the attribute path is taken if it
succeeds. -/
theorem firstOf_paths_of_mem {levels : Nat} {path : Path} {shape : Parse Path}
    (hmem : shape ∈ longerPaths levels) (h : shape s = .ok path s') :
    firstOf (paths levels) s = .ok (some path) s' := by
  have hexcludes := pairwise_excludes_longerPaths levels s
  rw [paths_eq, firstOf_append_eq_some_iff, firstOf_eq_some_iff_exists_mem hexcludes]
  exact .inl ⟨shape, hmem, h⟩

/-- Where the end follows the attribute path, that is all there is. -/
theorem firstOf_paths_of_attributePath {levels : Nat} {a : AttributePath}
    (h : attributePath s = .ok a s') (heof : s'.current = .eof) :
    firstOf (paths levels) s = .ok (some (.attribute a)) s' := by
  have hbehind : BehindPath .eof s := ⟨a, s', h, heof⟩
  have hnone : firstOf (longerPaths levels) s = .ok none s := by
    refine firstOf_eq_none_iff.mpr ⟨rfl, ?_⟩
    simp only [longerPaths, List.mem_cons, List.not_mem_nil, or_false, forall_eq_or_imp, forall_eq]
    exact ⟨fun p m hp => absurd ((behindPath_of_valuesPath hp).unique hbehind) (by decide),
      fun p m hp => absurd ((behindPath_of_map_attributeTest hp).unique hbehind) (by decide)⟩
  rw [paths_eq, firstOf_append_eq_some_iff, firstOf_cons_eq_some_iff]
  exact .inr ⟨hnone, .inl (map_eq_ok_iff.mpr ⟨a, h, rfl⟩)⟩

/-- The first alternative that succeeds is the only one that can be followed
by the end. -/
theorem wholePath_iff_readsPath {levels : Nat} {path : Path} :
    (∃ s', wholePath levels s = .ok path s') ↔ ReadsPath (nested valueFilter levels) s path := by
  rw [wholePath_eq_ok_iff]
  refine ⟨fun hx => ?_, fun hx => ?_⟩
  · obtain ⟨m, h, heof⟩ := hx
    rcases firstOf_paths_cases h with hvalues | ⟨test, htest, rfl⟩ | ⟨a, ha, rfl⟩
    · exact .inl ⟨m, hvalues, heof⟩
    · exact .inr (.inl ⟨test, ⟨m, htest, heof⟩, rfl⟩)
    · exact .inr (.inr ⟨a, ⟨m, ha, heof⟩, rfl⟩)
  · obtain ⟨m, h, heof⟩ | ⟨test, ⟨m, h, heof⟩, rfl⟩ | ⟨a, ⟨m, h, heof⟩, rfl⟩ := hx
    · have hvalues : valuesPath levels s = .ok path m := h
      exact ⟨m, firstOf_paths_of_mem (by simp [longerPaths]) hvalues, heof⟩
    · have htest : (Path.test <$> attributeTest) s = .ok (.test test) m :=
        map_eq_ok_iff.mpr ⟨test, h, rfl⟩
      exact ⟨m, firstOf_paths_of_mem (by simp [longerPaths]) htest, heof⟩
    · exact ⟨m, firstOf_paths_of_attributePath h heof, heof⟩

/-- **A whole path is read over its tokens.** -/
theorem wholePath_iff {levels : Nat} {path : Path} (hs : s.Ended) :
    (∃ s', wholePath levels s = .ok path s') ↔
      ∃ tokens, s.Whole tokens ∧ path.Spells tokens ∧ path.nesting ≤ levels := by
  obtain ⟨stops, hstops, hcontents⟩ := exists_encloses_valueFilter levels
  rw [wholePath_iff_readsPath, readsPath_iff hcontents hstops hs]

end ScimQuery.OrderedChoice
