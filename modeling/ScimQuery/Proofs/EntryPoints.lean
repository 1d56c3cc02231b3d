/-
ScimQuery.Proofs.EntryPoints — what a text is as a path and as a filter.

Filters and paths are read by different parsers, and their languages overlap:
a test and filtered values are both conditions and paths. On these the two
readings agree (`Condition.path_iff_single`). What is a path and no condition
ends with an attribute name, and no filter does: a condition ends with a
keyword, a literal or a bracket, and a group with a parenthesis. So such a text
is no filter at all, under any settings.
-/
import ScimQuery.Proofs.Acceptance

namespace ScimQuery

/-! ## 1. Conditions as paths -/

/-- The filter that consists of one condition. -/
def Filter.single (c : Condition) : Filter :=
  .one (.one (.leaf c))

/-- A condition as a path. Filtered values have no sub-attribute then. -/
def Condition.asPath : Condition → Path
  | .test t => .test t
  | .values v => .values v none

variable {tokens : List Token} {text : String}

theorem Filter.spells_single_iff {c : Condition} :
    Filter.Spells tokens (single c) ↔ c.Spells tokens := by
  constructor
  · intro h
    obtain ⟨⟨h⟩⟩ := h
    cases h with
    | leaf hc => exact hc
  · exact fun h => .one (.one (.leaf h))

theorem Condition.spells_asPath_iff {c : Condition} :
    c.asPath.Spells tokens ↔ c.Spells tokens := by
  cases c with
  | test test => exact Iff.rfl
  | values v =>
    constructor
    · intro h
      obtain ⟨inner, hinner, rfl⟩ := h
      rwa [subTokens, List.append_nil]
    · exact fun h => ⟨tokens, h, (List.append_nil tokens).symm⟩

theorem Condition.nesting_asPath (c : Condition) : c.asPath.nesting = c.nesting := by
  cases c <;> rfl

/-- **A condition is read as a path if it is read as a filter of its own.** -/
theorem Condition.ofText_asPath_iff {settings : ParseSettings} {c : Condition} :
    Path.ofText text settings = .ok c.asPath ↔ Filter.ofText text settings = .ok (.single c) := by
  rw [Path.ofText_eq_ok_iff, Filter.ofText_eq_ok_iff]
  simp only [spells_asPath_iff, Filter.spells_single_iff, nesting_asPath]
  rfl

/-! ## 2. How filters and paths end -/

/-- The row ends with the name of an attribute. -/
def EndsWithName (tokens : List Token) : Prop :=
  ∃ name, tokens.getLast? = some (.attribute name)

/-- The end of two rows is that of the second one, if there is one. -/
theorem endsWithName_append {front rest : List Token} (h : rest ≠ []) :
    EndsWithName (front ++ rest) ↔ EndsWithName rest := by
  rw [EndsWithName, EndsWithName, List.getLast?_append, List.getLast?_eq_some_getLast h,
    Option.some_or]

theorem AttributePath.endsWithName (path : AttributePath) : EndsWithName path.tokens := by
  obtain ⟨schema, name, sub⟩ := path
  cases sub with
  | none => exact ⟨name, by simp [tokens, subTokens]⟩
  | some sub => exact ⟨sub, by simp [tokens, subTokens]⟩

theorem AttributeTest.not_endsWithName_tail (test : AttributeTest) :
    test.tail ≠ [] ∧ ¬ EndsWithName test.tail := by
  cases test with
  | present path => simp [tail, EndsWithName]
  | compare path operator l => cases l <;> simp [tail, EndsWithName, Literal.token]

/-- No condition ends with a name, nor do rows of conditions and groups. -/
theorem rowProperty_not_endsWithName :
    RowProperty Condition.Spells fun tokens => tokens ≠ [] ∧ ¬ EndsWithName tokens where
  leaf := by
    rintro tokens (test | v) h
    · obtain ⟨hne, hend⟩ := test.not_endsWithName_tail
      obtain rfl : tokens = test.path.tokens ++ test.tail := h
      exact ⟨List.append_ne_nil_of_right_ne_nil _ hne, (endsWithName_append hne).not.mpr hend⟩
    · obtain ⟨inner, -, rfl⟩ := h
      refine ⟨by simp, ?_⟩
      rw [endsWithName_append (List.cons_ne_nil _ _), ← List.cons_append,
        endsWithName_append (List.cons_ne_nil _ _)]
      simp [EndsWithName]
  join := by
    intro front rest connective hfront hrest
    exact ⟨List.append_ne_nil_of_right_ne_nil _ hrest.1,
      (endsWithName_append hrest.1).not.mpr hrest.2⟩
  group := by
    intro negated opening inner hopens hinner
    refine ⟨by simp, ?_⟩
    rw [endsWithName_append (by simp)]
    simp [EndsWithName]

/-- **No filter ends with a name.** -/
theorem Filter.not_endsWithName {filter : Filter} (h : Filter.Spells tokens filter) :
    ¬ EndsWithName tokens :=
  (Disjunction.Spells.row rowProperty_not_endsWithName h).2

/-- What the text ends with decides whether it is a filter. -/
theorem Filter.exists_error_of_path {settings settings' : ParseSettings} {path : Path}
    (hpath : Path.ofText text settings = .ok path)
    (hend : ∀ {tokens}, path.Spells tokens → EndsWithName tokens) :
    ∃ e, Filter.ofText text settings' = .error e := by
  cases hfilter : Filter.ofText text settings' with
  | error e => exact ⟨e, rfl⟩
  | ok filter =>
    obtain ⟨row, hrow, htext, hspells, -⟩ := Path.ofText_eq_ok_iff.mp hpath
    obtain ⟨row', hrow', htext', hspells', -⟩ := Filter.ofText_eq_ok_iff.mp hfilter
    obtain rfl := hrow.unique hrow' (htext.trans htext'.symm)
    exact absurd (hend hspells) (not_endsWithName hspells')

/-! ## 3. One text, two readings -/

/-- **The two readings of a text agree on what both can be.** By either
strategy and within any limit, a text is a test or filtered values as a path if
it is that single condition as a filter, and a text that is an attribute path,
or filtered values with a sub-attribute, is no filter. -/
theorem entryPoints_agree (text : String) (settings : ParseSettings) :
    (∀ test, Path.ofText text settings = .ok (.test test) ↔
      Filter.ofText text settings = .ok (Filter.single (.test test))) ∧
    (∀ v, Path.ofText text settings = .ok (.values v none) ↔
      Filter.ofText text settings = .ok (Filter.single (.values v))) ∧
    (∀ a, Path.ofText text settings = .ok (.attribute a) →
      ∃ e, Filter.ofText text settings = .error e) ∧
    ∀ v name, Path.ofText text settings = .ok (.values v (some name)) →
      ∃ e, Filter.ofText text settings = .error e := by
  refine ⟨fun test => Condition.ofText_asPath_iff (c := .test test),
    fun v => Condition.ofText_asPath_iff (c := .values v), fun a hpath => ?_,
    fun v name hpath => ?_⟩
  · refine Filter.exists_error_of_path hpath fun hspells => ?_
    obtain rfl : _ = a.tokens := hspells
    exact a.endsWithName
  · refine Filter.exists_error_of_path hpath fun hspells => ?_
    obtain ⟨inner, -, rfl⟩ := hspells
    exact (endsWithName_append (List.cons_ne_nil _ _)).mpr ⟨name, rfl⟩

/-- Filtered values are a filter until a sub-attribute is put behind them, and
an attribute path is none. -/
theorem entryPoints_agree_sub :
    let v : ValuePath := ⟨⟨none, "a", none⟩, .one (.one (.leaf (.present ⟨none, "b", none⟩)))⟩
    Path.ofText "a[b pr].c" ⟨.orderedChoice, 1⟩ = .ok (.values v (some "c")) ∧
      (∃ e, Filter.ofText "a[b pr].c" ⟨.orderedChoice, 1⟩ = .error e) ∧
      Filter.ofText "a[b pr]" ⟨.orderedChoice, 1⟩ = .ok (Filter.single (.values v)) ∧
      Path.ofText "a.b" ⟨.lookahead, 0⟩ = .ok (.attribute ⟨none, "a", some "b"⟩) ∧
      ∃ e, Filter.ofText "a.b" ⟨.lookahead, 0⟩ = .error e := by
  intro v
  have hread (tokens : List Located) {text : String} {settings : ParseSettings} {path : Path}
      (htokens : Token.ofText text = .ok tokens)
      (hpath : (ParseSession.path ⟨settings, tokens, .ofTokens tokens⟩).1 = .ok path) :
      Path.ofText text settings = .ok path := by
    rw [Path.ofText, ParseSession.ofText, htokens]
    exact hpath
  have hsub : Path.ofText "a[b pr].c" ⟨.orderedChoice, 1⟩ = .ok (.values v (some "c")) :=
    hread (Token.locate 0 [.attribute "a", .openBracket, .attribute "b", .space,
      .keyword .present, .closeBracket, .dot, .attribute "c"]) (by decide) rfl
  have hvalues : Path.ofText "a[b pr]" ⟨.orderedChoice, 1⟩ = .ok (.values v none) :=
    hread (Token.locate 0 [.attribute "a", .openBracket, .attribute "b", .space,
      .keyword .present, .closeBracket]) (by decide) rfl
  have hattribute : Path.ofText "a.b" ⟨.lookahead, 0⟩ = .ok (.attribute ⟨none, "a", some "b"⟩) :=
    hread (Token.locate 0 [.attribute "a", .dot, .attribute "b"]) (by decide) rfl
  exact ⟨hsub, (entryPoints_agree _ _).2.2.2 v "c" hsub, ((entryPoints_agree _ _).2.1 v).mp hvalues,
    hattribute, (entryPoints_agree _ _).2.2.1 _ hattribute⟩

end ScimQuery
