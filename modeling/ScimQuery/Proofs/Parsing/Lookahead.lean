/-
ScimQuery.Proofs.Parsing.Lookahead — what the strategy that looks at the next
token parses.

The token at hand tells a condition from a group, and the token behind the
attribute path tells a test from filtered values. Since the grammar starts
its alternatives with different tokens, committing to one loses nothing: an
operand is parsed over exactly the tokens that spell it. A row of operands
stops where no space follows. The induction is on the levels of nesting that
are left.

The three shapes of a path differ in what stands behind the attribute path,
which is a bracket, a space or the end. So at most one of them fits, and the
order in which they are tried does not matter.
-/
import ScimQuery.Parsing.Lookahead
import ScimQuery.Proofs.Parsing.Alternatives

namespace ScimQuery.Lookahead

open Parse TokenStream

variable {α : Type} {s s' : TokenStream}

/-- Where no space follows. -/
def AtMark (s : TokenStream) : Prop :=
  s.current ≠ .space

/-! ## 1. Combinations -/

theorem parses_operand {stops : TokenStream → Prop} {leaf : Parse α}
    {contents : Parse (Disjunction α)} {conditions : List Token → α → Prop}
    {grammar : List Token → Disjunction α → Prop} (hleaf : Parses leaf conditions)
    (hstart : StartsWithPath conditions) (h : Encloses stops contents grammar)
    (hstops : StopsAtMark stops) :
    Parses (operand leaf contents) (OperandSpells conditions grammar) := by
  intro s o s' hs
  unfold operand
  rw [current_bind]
  have hcondition (hno : ¬ s.current.StartsGroup) :
      (.leaf <$> leaf : Parse (Operand α)) s = .ok o s' ↔
        ∃ tokens, s.Over tokens s' ∧ OperandSpells conditions grammar tokens o := by
    rw [map_eq_ok_iff]
    constructor
    · intro h'
      obtain ⟨a, ha, rfl⟩ := h'
      obtain ⟨tokens, hover, ha⟩ := (hleaf hs).mp ha
      exact ⟨tokens, hover, .inl ⟨a, rfl, ha⟩⟩
    · intro h'
      obtain ⟨tokens, hover, ⟨a, rfl, ha⟩ | hgroup⟩ := h'
      · exact ⟨a, (hleaf hs).mpr ⟨tokens, hover, ha⟩, rfl⟩
      · exact absurd (hgroup.current hover) hno
  have hgroup (hno : ¬ s.current.StartsPath) :
      (∃ tokens, s.Over tokens s' ∧ GroupSpells grammar tokens o) ↔
        ∃ tokens, s.Over tokens s' ∧ OperandSpells conditions grammar tokens o := by
    constructor
    · intro h'
      obtain ⟨tokens, hover, hgroup⟩ := h'
      exact ⟨tokens, hover, .inr hgroup⟩
    · intro h'
      obtain ⟨tokens, hover, ⟨a, rfl, ha⟩ | hgroup⟩ := h'
      · exact absurd (hstart.current ha hover) hno
      · exact ⟨tokens, hover, hgroup⟩
  have hnone (hpath : ¬ s.current.StartsPath) (hno : ¬ s.current.StartsGroup) :
      (mismatch .operand : Parse (Operand α)) s = .ok o s' ↔
        ∃ tokens, s.Over tokens s' ∧ OperandSpells conditions grammar tokens o := by
    constructor
    · exact fun hmismatch => absurd hmismatch mismatch_ne_ok
    · intro h'
      obtain ⟨tokens, hover, ⟨a, rfl, ha⟩ | hgroup⟩ := h'
      · exact absurd (hstart.current ha hover) hpath
      · exact absurd (hgroup.current hover) hno
  generalize s.current = token at *
  cases token with
  | urn urn => exact hcondition id
  | «attribute» name => exact hcondition id
  | openParen => exact (parses_group h hstops hs).trans (hgroup id)
  | keyword keyword =>
    cases keyword with
    | negation => exact (parses_group h hstops hs).trans (hgroup id)
    | _ => exact hnone id id
  | _ => exact hnone id id

/-- A space, and a connective and an operand behind it; or no space. -/
theorem steps_continuation {operand : Parse (Operand α)} {grammar : List Token → Operand α → Prop}
    (hoperand : Parses operand grammar) : Steps AtMark (continuation operand) grammar := by
  constructor
  · intro s c o s' hs
    rw [continuation, accept_bind]
    by_cases hspace : s.current = .space
    · simp only [hspace, if_true]
      rw [connective_bind_iff hoperand hs.next]
      constructor
      · intro h
        obtain ⟨_, _, ⟨⟩, tokens, hover, ho⟩ := h
        exact ⟨tokens, ⟨hspace, by decide, hover⟩, ho⟩
      · intro h
        obtain ⟨tokens, ⟨-, -, hover⟩, ho⟩ := h
        exact ⟨c, o, rfl, tokens, hover, ho⟩
    · simp only [hspace, if_false, Bool.false_eq_true, pure_eq_ok_iff, reduceCtorEq, false_and,
        false_iff]
      intro h
      obtain ⟨tokens, hover, -⟩ := h
      exact hspace (over_cons.mp hover).1
  · intro s s' hs
    rw [continuation, accept_bind]
    by_cases hspace : s.current = .space
    · simp only [hspace, if_true, AtMark, ne_eq, not_true_eq_false, and_false, iff_false]
      rw [connective_bind_iff hoperand hs.next]
      intro h
      obtain ⟨_, _, ⟨⟩, -⟩ := h
    · simp [hspace, AtMark, pure_eq_ok_iff]

theorem stopsAtMark_atMark : StopsAtMark AtMark := fun _ => id

theorem combination_eq (leaf : Nat → Parse α) (levels : Nat) :
    combination leaf levels =
      operands (operand (leaf levels) (nested (combination leaf) levels)) := by
  cases levels <;> rfl

/-- **A combination is parsed over its tokens**, up to a place where no space
follows, if its conditions are. -/
theorem parsesUntil_combination {leaf : Nat → Parse α} {conditions : List Token → α → Prop}
    {size : α → Nat} (hstart : StartsWithPath conditions)
    (hleaf : ∀ n, Parses (leaf n) fun tokens a => conditions tokens a ∧ size a ≤ n)
    (levels : Nat) :
    ParsesUntil AtMark (combination leaf levels)
      (Disjunction.SpellsWithin conditions size levels) := by
  induction levels using Nat.strongRecOn with
  | ind levels ih =>
    have hcontents : Encloses AtMark (nested (combination leaf) levels)
        (Disjunction.SpellsBelow conditions size levels) :=
      encloses_nested fun n hn => ih n (by omega)
    have hoperand :=
      (parses_operand (hleaf levels) (hstart.and _) hcontents stopsAtMark_atMark).operandWithin
    rw [combination_eq]
    exact ScimQuery.parsesUntil_combination hoperand (steps_continuation hoperand)

/-- The operands of a combination are parsed over their tokens as well. -/
theorem parses_operandOf {leaf : Nat → Parse α} {conditions : List Token → α → Prop}
    {size : α → Nat} (hstart : StartsWithPath conditions)
    (hleaf : ∀ n, Parses (leaf n) fun tokens a => conditions tokens a ∧ size a ≤ n)
    (levels : Nat) :
    Parses (operand (leaf levels) (nested (combination leaf) levels))
      (Operand.SpellsWithin conditions size levels) :=
  (parses_operand (hleaf levels) (hstart.and _)
    (encloses_nested fun n _ => parsesUntil_combination hstart hleaf n)
    stopsAtMark_atMark).operandWithin

/-! ## 2. Filters -/

/-- A test is nested in no group. -/
theorem parses_valueTest (n : Nat) :
    Parses attributeTest fun tokens test => AttributeTest.Spells tokens test ∧ 0 ≤ n := by
  intro s test s' hs
  simp [parses_attributeTest hs]

/-- A filter in brackets, up to a place where no space follows. -/
theorem parsesUntil_valueFilter (levels : Nat) :
    ParsesUntil AtMark (valueFilter levels)
      (Disjunction.SpellsWithin AttributeTest.Spells (fun _ => 0) levels) :=
  parsesUntil_combination AttributeTest.startsWithPath parses_valueTest levels

/-- What stands in brackets. -/
theorem encloses_valueFilter (levels : Nat) :
    Encloses AtMark (nested valueFilter levels) (FilterBelow levels) :=
  encloses_nested fun n _ => parsesUntil_valueFilter n

/-- A condition is committed to one shape by the token behind the path, and
the other shapes ask for another token there. -/
theorem condition_eq_ok_iff {levels : Nat} {c : Condition} :
    condition levels s = .ok c s' ↔ ReadsCondition (nested valueFilter levels) s c s' := by
  constructor
  · intro h
    obtain ⟨path, m, hpath, hshape⟩ := bind_eq_ok_iff.mp h
    rw [current_bind] at hshape
    generalize m.current = token at hshape
    cases token with
    | space =>
      obtain ⟨test, m', htest, hc⟩ := bind_eq_ok_iff.mp hshape
      obtain ⟨rfl, rfl⟩ := pure_eq_ok_iff.mp hc
      exact .inl ⟨test, bind_eq_ok_iff.mpr ⟨path, m, hpath, htest⟩, rfl⟩
    | openBracket =>
      obtain ⟨v, m', hv, hc⟩ := bind_eq_ok_iff.mp hshape
      obtain ⟨rfl, rfl⟩ := pure_eq_ok_iff.mp hc
      exact .inr ⟨v, bind_eq_ok_iff.mpr ⟨path, m, hpath, hv⟩, rfl⟩
    | _ => exact absurd hshape mismatch_ne_ok
  · intro h'
    obtain ⟨test, h, rfl⟩ | ⟨v, h, rfl⟩ := h'
    · obtain ⟨path, m, hpath, htest⟩ := bind_eq_ok_iff.mp h
      have hspace : m.current = .space := current_of_over_tail (testOf_eq_ok_iff.mp htest).2
      refine bind_eq_ok_iff.mpr ⟨path, m, hpath, ?_⟩
      rw [current_bind, hspace]
      exact bind_eq_ok_iff.mpr ⟨test, s', htest, rfl⟩
    · obtain ⟨path, m, hpath, hv⟩ := bind_eq_ok_iff.mp h
      have hopen : m.current = .openBracket := (ensure_bind_eq_ok_iff.mp hv).1
      refine bind_eq_ok_iff.mpr ⟨path, m, hpath, ?_⟩
      rw [current_bind, hopen]
      exact bind_eq_ok_iff.mpr ⟨v, s', hv, rfl⟩

theorem parses_condition (levels : Nat) :
    Parses (condition levels) (ConditionWithin levels) := by
  intro s c s' hs
  rw [condition_eq_ok_iff, readsCondition_iff (encloses_valueFilter levels) stopsAtMark_atMark hs]

/-- A filter, up to a place where no space follows. -/
theorem parsesUntil_filter (levels : Nat) :
    ParsesUntil AtMark (filter levels)
      (Disjunction.SpellsWithin Condition.Spells Condition.nesting levels) :=
  parsesUntil_combination Condition.startsWithPath parses_condition levels

/-! ## 3. Whole texts -/

/-- **A whole filter is read over its tokens.** -/
theorem wholeFilter_iff {levels : Nat} {filter : Filter} (hs : s.Ended) :
    (∃ s', wholeFilter levels s = .ok filter s') ↔
      ∃ tokens, s.Whole tokens ∧ Filter.Spells tokens filter ∧ filter.nesting ≤ levels := by
  rw [wholeFilter, require_eof_iff]
  simp only [exists_eq_right,
    readsWhole_iff_of_parsesUntil (parsesUntil_filter levels) stopsAtMark_atMark hs]
  rfl

/-- Filtered values are read up to the end. -/
theorem wholeValues_eq_ok_iff {levels : Nat} {path : Path} :
    (∃ s', wholeValues levels s = .ok path s') ↔
      ReadsWhole (valuesAndSub (nested valueFilter levels)) s path := by
  have hassoc : wholeValues levels = (valuesAndSub (nested valueFilter levels) >>= fun path =>
      require .eof >>= fun _ => pure (id path)) := by
    simp [wholeValues, valuesAndSub]
  rw [hassoc, require_eof_iff]
  simp

theorem wholeTest_eq_ok_iff {path : Path} :
    (∃ s', wholeTest s = .ok path s') ↔
      ∃ test, ReadsWhole attributeTest s test ∧ .test test = path :=
  require_eof_iff

theorem wholeAttribute_eq_ok_iff {path : Path} :
    (∃ s', wholeAttribute s = .ok path s') ↔
      ∃ a, ReadsWhole attributePath s a ∧ .attribute a = path :=
  require_eof_iff

theorem wholePath_eq_ok_iff {levels : Nat} {path : Path} :
    wholePath levels s = .ok path s' ↔ firstOf (paths levels) s = .ok (some path) s' := by
  rw [wholePath, bind_eq_ok_iff]
  constructor
  · intro h
    obtain ⟨found, m, hfound, hpath⟩ := h
    cases found with
    | none => cases hpath
    | some p =>
      obtain ⟨rfl, rfl⟩ := pure_eq_ok_iff.mp hpath
      exact hfound
  · exact fun hfound => ⟨some path, s', hfound, rfl⟩

/-- **The shapes of a path exclude each other**: each of them goes up to the
end and has its own token behind the attribute path. -/
theorem pairwise_excludes_paths (levels : Nat) (s : TokenStream) :
    (paths levels).Pairwise (Excludes s) := by
  have hvalues (p : Path) (m : TokenStream) (h : wholeValues levels s = .ok p m) :
      BehindPath .openBracket s := by
    obtain ⟨m', h, -⟩ := wholeValues_eq_ok_iff.mp ⟨m, h⟩
    exact behindPath_of_valuesAndSub h
  have htest (p : Path) (m : TokenStream) (h : wholeTest s = .ok p m) : BehindPath .space s := by
    obtain ⟨test, ⟨m', h, -⟩, -⟩ := wholeTest_eq_ok_iff.mp ⟨m, h⟩
    exact behindPath_of_attributeTest h
  have hattribute (p : Path) (m : TokenStream) (h : wholeAttribute s = .ok p m) :
      BehindPath .eof s := by
    obtain ⟨a, h, -⟩ := wholeAttribute_eq_ok_iff.mp ⟨m, h⟩
    exact behindPath_of_attributePath h
  simp only [paths, List.pairwise_cons, List.mem_cons, List.not_mem_nil, or_false,
    forall_eq_or_imp, forall_eq, false_imp_iff, implies_true, List.Pairwise.nil, and_true]
  exact ⟨⟨excludes_of_behindPath (by decide) hvalues htest,
    excludes_of_behindPath (by decide) hvalues hattribute⟩,
    excludes_of_behindPath (by decide) htest hattribute⟩

/-- A path is read in the one shape that fits. -/
theorem wholePath_iff_readsPath {levels : Nat} {path : Path} :
    (∃ s', wholePath levels s = .ok path s') ↔ ReadsPath (nested valueFilter levels) s path := by
  simp only [wholePath_eq_ok_iff, firstOf_eq_some_iff_exists_mem (pairwise_excludes_paths levels s)]
  simp only [paths, List.mem_cons, List.not_mem_nil, or_false, exists_eq_or_imp, exists_eq_left,
    exists_or, wholeValues_eq_ok_iff, wholeTest_eq_ok_iff, wholeAttribute_eq_ok_iff, ReadsPath]

/-- **A whole path is read over its tokens.** -/
theorem wholePath_iff {levels : Nat} {path : Path} (hs : s.Ended) :
    (∃ s', wholePath levels s = .ok path s') ↔
      ∃ tokens, s.Whole tokens ∧ path.Spells tokens ∧ path.nesting ≤ levels := by
  rw [wholePath_iff_readsPath, readsPath_iff (encloses_valueFilter levels) stopsAtMark_atMark hs]

end ScimQuery.Lookahead
