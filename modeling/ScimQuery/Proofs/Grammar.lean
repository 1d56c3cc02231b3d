/-
ScimQuery.Proofs.Grammar — the grammar of the query language over characters.

`Filter.Derives text filter` says that the text derives the filter. It knows
nothing of tokens, and every blank of the language stands in it:

    FILTER   = AND *( " or " AND )
    AND      = OPERAND *( " and " OPERAND )
    OPERAND  = TEST / PATH "[" FILTER' "]" / [ "not" [ " " ] ] "(" FILTER ")"
    TEST     = PATH " pr" / PATH " " COMPARISON " " LITERAL
    PATH     = [ URN ":" ] NAME [ "." NAME ]

where FILTER' has tests for its conditions only. A NAME is a valid attribute
name that is no keyword, and a LITERAL is a constant, a number of JSON or a
quoted string.

A text derives a tree exactly if it is the text of well-formed tokens that
spell the tree (`Filter.derives_iff`). With what is known about tokens, the
texts that are accepted are those that derive something within the limit,
and no text derives two trees.
-/
import ScimQuery.Proofs.Readability

namespace ScimQuery

open Token

/-! ## 1. Phrases -/

/-- `[ URN ":" ]`. -/
inductive SchemaDerives : String → Option String → Prop where
  | none : SchemaDerives "" none
  | some {urn : String} : SchemaUrn.isValid urn.toList = true →
      SchemaDerives (urn ++ ":") (some urn)

/-- `[ "." NAME ]`. -/
inductive SubDerives : String → Option String → Prop where
  | none : SubDerives "" none
  | some {name : String} : AttributeName.IsFree name → SubDerives ("." ++ name) (some name)

/-- `[ URN ":" ] NAME [ "." NAME ]`. -/
inductive AttributePath.Derives : String → AttributePath → Prop where
  | mk {front name back : String} {schema sub : Option String} :
      SchemaDerives front schema → AttributeName.IsFree name → SubDerives back sub →
      AttributePath.Derives (front ++ name ++ back) ⟨schema, name, sub⟩

/-- A constant, a number of JSON, or a quoted string. -/
inductive Literal.Derives : String → Literal → Prop where
  | constant (value : Constant) : Literal.Derives value.word (.constant value)
  | number {text : String} : Number.IsNumber text.toList → Literal.Derives text (.number text)
  | string {text : String} : Quoted.IsQuoted text.toList → Literal.Derives text (.string text)

/-- `PATH " pr"`, or `PATH " " COMPARISON " " LITERAL`. -/
inductive AttributeTest.Derives : String → AttributeTest → Prop where
  | present {text : String} {path : AttributePath} :
      path.Derives text → AttributeTest.Derives (text ++ " pr") (.present path)
  | compare {front back : String} {path : AttributePath} {operator : Comparison}
      {literal : Literal} : path.Derives front → literal.Derives back →
      AttributeTest.Derives (front ++ " " ++ operator.word ++ " " ++ back)
        (.compare path operator literal)

/-! ## 2. Combinations -/

/-- What stands in front of a group: `not` with or without a space behind it,
or nothing. -/
inductive NotDerives : String → Bool → Prop where
  | plain : NotDerives "" false
  | negated : NotDerives "not" true
  | spaced : NotDerives "not " true

mutual

/-- `AND *( " or " AND )`, given what derives a condition. -/
inductive Disjunction.Derives {α : Type} (leaf : String → α → Prop) :
    String → Disjunction α → Prop where
  | one {text : String} {c : Conjunction α} :
      Conjunction.Derives leaf text c → Disjunction.Derives leaf text (.one c)
  | or {front back : String} {c : Conjunction α} {d : Disjunction α} :
      Conjunction.Derives leaf front c → Disjunction.Derives leaf back d →
      Disjunction.Derives leaf (front ++ " or " ++ back) (.or c d)

/-- `OPERAND *( " and " OPERAND )`. -/
inductive Conjunction.Derives {α : Type} (leaf : String → α → Prop) :
    String → Conjunction α → Prop where
  | one {text : String} {o : Operand α} :
      Operand.Derives leaf text o → Conjunction.Derives leaf text (.one o)
  | and {front back : String} {o : Operand α} {c : Conjunction α} :
      Operand.Derives leaf front o → Conjunction.Derives leaf back c →
      Conjunction.Derives leaf (front ++ " and " ++ back) (.and o c)

/-- A condition, or `[ "not" [ " " ] ] "(" FILTER ")"`. -/
inductive Operand.Derives {α : Type} (leaf : String → α → Prop) :
    String → Operand α → Prop where
  | leaf {text : String} {a : α} : leaf text a → Operand.Derives leaf text (.leaf a)
  | group {front text : String} {negated : Bool} {d : Disjunction α} :
      NotDerives front negated → Disjunction.Derives leaf text d →
      Operand.Derives leaf (front ++ "(" ++ text ++ ")") (.group negated d)

end

/-- A filter in brackets: tests and groups of them. -/
def ValueFilter.Derives (text : String) (filter : ValueFilter) : Prop :=
  Disjunction.Derives AttributeTest.Derives text filter

/-- `PATH "[" FILTER' "]"`. -/
inductive ValuePath.Derives : String → ValuePath → Prop where
  | mk {front text : String} {path : AttributePath} {filter : ValueFilter} :
      path.Derives front → ValueFilter.Derives text filter →
      ValuePath.Derives (front ++ "[" ++ text ++ "]") ⟨path, filter⟩

/-- A test, or filtered values. -/
inductive Condition.Derives : String → Condition → Prop where
  | test {text : String} {test : AttributeTest} :
      test.Derives text → Condition.Derives text (.test test)
  | values {text : String} {v : ValuePath} : v.Derives text → Condition.Derives text (.values v)

/-- The text derives the filter. -/
def Filter.Derives (text : String) (filter : Filter) : Prop :=
  Disjunction.Derives Condition.Derives text filter

/-! ## 3. Derivations and tokens -/

/-- The tokens are well formed and the text is theirs. -/
def Writes (tokens : List Token) (text : String) : Prop :=
  AllWellFormed tokens ∧ textOf tokens = text

theorem writes_nil_iff {text : String} : Writes [] text ↔ text = "" := by
  simp [Writes, eq_comm]

theorem writes_append_iff {front back : List Token} {text : String} :
    Writes (front ++ back) text ↔
      ∃ first second, Writes front first ∧ Writes back second ∧ first ++ second = text := by
  simp only [Writes, allWellFormed_append, textOf_append]
  refine ⟨fun h => ?_, fun h => ?_⟩
  · obtain ⟨⟨hfront, hback⟩, rfl⟩ := h
    exact ⟨_, _, ⟨hfront, rfl⟩, ⟨hback, rfl⟩, rfl⟩
  · obtain ⟨_, _, ⟨hfront, rfl⟩, ⟨hback, rfl⟩, rfl⟩ := h
    exact ⟨⟨hfront, hback⟩, rfl⟩

theorem writes_cons_iff {token : Token} {tokens : List Token} {text : String} :
    Writes (token :: tokens) text ↔
      token.IsWellFormed ∧ ∃ rest, Writes tokens rest ∧ token.text ++ rest = text := by
  simp only [Writes, allWellFormed_cons, textOf_cons]
  refine ⟨fun h => ?_, fun h => ?_⟩
  · obtain ⟨⟨htoken, htokens⟩, rfl⟩ := h
    exact ⟨htoken, _, ⟨htokens, rfl⟩, rfl⟩
  · obtain ⟨htoken, _, ⟨htokens, rfl⟩, rfl⟩ := h
    exact ⟨⟨htoken, htokens⟩, rfl⟩

theorem schemaDerives_iff {schema : Option String} {text : String} :
    SchemaDerives text schema ↔ Writes (schemaTokens schema) text := by
  cases schema with
  | none =>
    rw [schemaTokens, writes_nil_iff]
    refine ⟨fun h => ?_, fun h => h ▸ .none⟩
    cases h
    rfl
  | some urn =>
    refine ⟨fun h => ?_, fun h => ?_⟩
    · cases h with
      | some hurn => exact ⟨by simpa [schemaTokens, IsWellFormed] using hurn, rfl⟩
    · obtain ⟨hwell, rfl⟩ := h
      exact .some (allWellFormed_cons.mp hwell).1

theorem subDerives_iff {sub : Option String} {text : String} :
    SubDerives text sub ↔ Writes (subTokens sub) text := by
  cases sub with
  | none =>
    rw [subTokens, writes_nil_iff]
    refine ⟨fun h => ?_, fun h => h ▸ .none⟩
    cases h
    rfl
  | some name =>
    refine ⟨fun h => ?_, fun h => ?_⟩
    · cases h with
      | some hname =>
        exact ⟨by simpa [subTokens, IsWellFormed] using hname, by simp [subTokens, Token.text]⟩
    · obtain ⟨hwell, rfl⟩ := h
      simp only [subTokens, allWellFormed_cons] at hwell
      simpa [subTokens, Token.text] using SubDerives.some hwell.2.1

theorem AttributePath.derives_iff {path : AttributePath} {text : String} :
    path.Derives text ↔ Writes path.tokens text := by
  obtain ⟨schema, name, sub⟩ := path
  rw [tokens, writes_append_iff]
  simp only [writes_cons_iff]
  refine ⟨fun h => ?_, fun h => ?_⟩
  · cases h with
    | mk hschema hname hsub =>
      exact ⟨_, _, schemaDerives_iff.mp hschema,
        ⟨hname, _, subDerives_iff.mp hsub, rfl⟩, String.append_assoc.symm⟩
  · obtain ⟨front, _, hschema, ⟨hname, back, hsub, rfl⟩, rfl⟩ := h
    rw [← String.append_assoc]
    exact .mk (schemaDerives_iff.mpr hschema) hname (subDerives_iff.mpr hsub)

theorem Literal.derives_iff {l : Literal} {text : String} :
    l.Derives text ↔ Writes [l.token] text := by
  simp only [Writes, allWellFormed_cons, allWellFormed_nil, and_true, textOf_cons, textOf_nil,
    String.append_empty]
  refine ⟨fun h => ?_, fun h => ?_⟩
  · cases h with
    | constant value => exact ⟨trivial, rfl⟩
    | number hnumber => exact ⟨hnumber, rfl⟩
    | string hstring => exact ⟨hstring, rfl⟩
  · obtain ⟨hwell, rfl⟩ := h
    cases l with
    | constant value => exact .constant value
    | number literal => exact .number hwell
    | string literal => exact .string hwell

theorem AttributeTest.derives_iff {test : AttributeTest} {text : String} :
    test.Derives text ↔ Writes test.tokens text := by
  rw [tokens, writes_append_iff]
  refine ⟨fun h => ?_, fun h => ?_⟩
  · cases h with
    | present hpath =>
      exact ⟨_, _, AttributePath.derives_iff.mp hpath, ⟨by simp [tail, IsWellFormed], rfl⟩, rfl⟩
    | @compare front back path operator l hpath hl =>
      obtain ⟨hwell, rfl⟩ := Literal.derives_iff.mp hl
      refine ⟨_, _, AttributePath.derives_iff.mp hpath, ⟨?_, rfl⟩, ?_⟩
      · simpa [tail, IsWellFormed] using hwell
      · simp [tail, Token.text, Keyword.word, String.append_assoc]
  · obtain ⟨front, _, hpath, ⟨hwell, rfl⟩, rfl⟩ := h
    cases test with
    | present path => exact .present (AttributePath.derives_iff.mpr hpath)
    | compare path operator l =>
      simp only [tail, allWellFormed_cons] at hwell
      have hl : l.Derives (textOf [l.token]) :=
        Literal.derives_iff.mpr ⟨by simpa using hwell.2.2.2.1, rfl⟩
      have h : AttributeTest.Derives (front ++ " " ++ operator.word ++ " " ++ textOf [l.token])
          (.compare path operator l) := .compare (AttributePath.derives_iff.mpr hpath) hl
      simpa [tail, Token.text, Keyword.word, String.append_assoc] using h

theorem writes_connective_iff {connective : Connective} {text : String} :
    Writes connective.tokens text ↔ text = connective.text := by
  have hwell : AllWellFormed connective.tokens := by simp [Connective.tokens, IsWellFormed]
  have htext : textOf connective.tokens = connective.text := by
    simp [Connective.tokens, Connective.text, Token.text, Keyword.word, String.append_assoc]
  rw [Writes, htext]
  exact ⟨fun h => h.2.symm, fun h => ⟨hwell, h.symm⟩⟩

/-- Two rows with a connective between them. -/
theorem writes_joined_iff {connective : Connective} {front back : List Token} {text : String} :
    Writes (front ++ connective.tokens ++ back) text ↔
      ∃ first second, Writes front first ∧ Writes back second ∧
        first ++ connective.text ++ second = text := by
  simp only [writes_append_iff, writes_connective_iff]
  refine ⟨fun h => ?_, fun h => ?_⟩
  · obtain ⟨_, second, ⟨first, _, hfirst, rfl, rfl⟩, hsecond, rfl⟩ := h
    exact ⟨first, second, hfirst, hsecond, rfl⟩
  · obtain ⟨first, second, hfirst, hsecond, rfl⟩ := h
    exact ⟨_, second, ⟨first, _, hfirst, rfl, rfl⟩, hsecond, rfl⟩

theorem Connective.text_or : Connective.or.text = " or " := by decide

theorem Connective.text_and : Connective.and.text = " and " := by decide

/-- What opens a group, with its parenthesis. -/
theorem opens_writes_iff {negated : Bool} {text : String} :
    (∃ opening, Opens negated opening ∧ Writes opening text) ↔
      ∃ front, NotDerives front negated ∧ front ++ "(" = text := by
  refine ⟨fun h => ?_, fun h => ?_⟩
  · obtain ⟨opening, hopens, -, rfl⟩ := h
    cases hopens with
    | plain => exact ⟨"", .plain, by decide⟩
    | negated => exact ⟨"not", .negated, by decide⟩
    | spaced => exact ⟨"not ", .spaced, by decide⟩
  · obtain ⟨front, hfront, rfl⟩ := h
    cases hfront with
    | plain => exact ⟨_, .plain, by simp [IsWellFormed], by decide⟩
    | negated => exact ⟨_, .negated, by simp [IsWellFormed], by decide⟩
    | spaced => exact ⟨_, .spaced, by simp [IsWellFormed], by decide⟩

section Combinations

variable {α : Type} {derives : String → α → Prop} {spells : List Token → α → Prop}

mutual

/-- The derivations of a combination are its tokens, if those of a condition
are. -/
theorem Disjunction.derives_iff
    (hleaf : ∀ a text, derives text a ↔ ∃ tokens, spells tokens a ∧ Writes tokens text) :
    ∀ {d : Disjunction α} {text : String},
      d.Derives derives text ↔ ∃ tokens, d.Spells spells tokens ∧ Writes tokens text
  | .one c, text => by
      refine ⟨fun h => ?_, fun h => ?_⟩
      · cases h with
        | one hc =>
          obtain ⟨tokens, hc, hwrites⟩ := (Conjunction.derives_iff hleaf).mp hc
          exact ⟨tokens, .one hc, hwrites⟩
      · obtain ⟨tokens, h, hwrites⟩ := h
        cases h with
        | one hc => exact .one ((Conjunction.derives_iff hleaf).mpr ⟨tokens, hc, hwrites⟩)
  | .or c d, text => by
      refine ⟨fun h => ?_, fun h => ?_⟩
      · cases h with
        | or hc hd =>
          obtain ⟨front, hc, hfront⟩ := (Conjunction.derives_iff hleaf).mp hc
          obtain ⟨back, hd, hback⟩ := (Disjunction.derives_iff hleaf).mp hd
          exact ⟨_, .or hc hd, writes_joined_iff.mpr
            ⟨_, _, hfront, hback, by rw [Connective.text_or]⟩⟩
      · obtain ⟨tokens, h, hwrites⟩ := h
        cases h with
        | or hc hd =>
          obtain ⟨front, back, hfront, hback, rfl⟩ := writes_joined_iff.mp hwrites
          rw [Connective.text_or]
          exact .or ((Conjunction.derives_iff hleaf).mpr ⟨_, hc, hfront⟩)
            ((Disjunction.derives_iff hleaf).mpr ⟨_, hd, hback⟩)

theorem Conjunction.derives_iff
    (hleaf : ∀ a text, derives text a ↔ ∃ tokens, spells tokens a ∧ Writes tokens text) :
    ∀ {c : Conjunction α} {text : String},
      c.Derives derives text ↔ ∃ tokens, c.Spells spells tokens ∧ Writes tokens text
  | .one o, text => by
      refine ⟨fun h => ?_, fun h => ?_⟩
      · cases h with
        | one ho =>
          obtain ⟨tokens, ho, hwrites⟩ := (Operand.derives_iff hleaf).mp ho
          exact ⟨tokens, .one ho, hwrites⟩
      · obtain ⟨tokens, h, hwrites⟩ := h
        cases h with
        | one ho => exact .one ((Operand.derives_iff hleaf).mpr ⟨tokens, ho, hwrites⟩)
  | .and o c, text => by
      refine ⟨fun h => ?_, fun h => ?_⟩
      · cases h with
        | and ho hc =>
          obtain ⟨front, ho, hfront⟩ := (Operand.derives_iff hleaf).mp ho
          obtain ⟨back, hc, hback⟩ := (Conjunction.derives_iff hleaf).mp hc
          exact ⟨_, .and ho hc, writes_joined_iff.mpr
            ⟨_, _, hfront, hback, by rw [Connective.text_and]⟩⟩
      · obtain ⟨tokens, h, hwrites⟩ := h
        cases h with
        | and ho hc =>
          obtain ⟨front, back, hfront, hback, rfl⟩ := writes_joined_iff.mp hwrites
          rw [Connective.text_and]
          exact .and ((Operand.derives_iff hleaf).mpr ⟨_, ho, hfront⟩)
            ((Conjunction.derives_iff hleaf).mpr ⟨_, hc, hback⟩)

theorem Operand.derives_iff
    (hleaf : ∀ a text, derives text a ↔ ∃ tokens, spells tokens a ∧ Writes tokens text) :
    ∀ {o : Operand α} {text : String},
      o.Derives derives text ↔ ∃ tokens, o.Spells spells tokens ∧ Writes tokens text
  | .leaf a, text => by
      refine ⟨fun h => ?_, fun h => ?_⟩
      · cases h with
        | leaf ha =>
          obtain ⟨tokens, ha, hwrites⟩ := (hleaf a _).mp ha
          exact ⟨tokens, .leaf ha, hwrites⟩
      · obtain ⟨tokens, h, hwrites⟩ := h
        cases h with
        | leaf ha => exact .leaf ((hleaf a _).mpr ⟨tokens, ha, hwrites⟩)
  | .group negated d, text => by
      refine ⟨fun h => ?_, fun h => ?_⟩
      · cases h with
        | group hfront hd =>
          obtain ⟨opening, hopens, hopening⟩ := opens_writes_iff.mpr ⟨_, hfront, rfl⟩
          obtain ⟨inner, hd, hinner⟩ := (Disjunction.derives_iff hleaf).mp hd
          have hclose : Writes [.closeParen] ")" := ⟨by simp [IsWellFormed], by decide⟩
          exact ⟨_, .group hopens hd, writes_append_iff.mpr
            ⟨_, _, writes_append_iff.mpr ⟨_, _, hopening, hinner, rfl⟩, hclose, rfl⟩⟩
      · obtain ⟨tokens, h, hwrites⟩ := h
        cases h with
        | group hopens hd =>
          obtain ⟨_, _, hrow, ⟨-, rfl⟩, rfl⟩ := writes_append_iff.mp hwrites
          obtain ⟨_, inner, hopening, hinner, rfl⟩ := writes_append_iff.mp hrow
          obtain ⟨front, hfront, rfl⟩ := opens_writes_iff.mp ⟨_, hopens, hopening⟩
          exact .group hfront ((Disjunction.derives_iff hleaf).mpr ⟨_, hd, hinner⟩)

end

end Combinations

theorem AttributeTest.derives_iff_spells (test : AttributeTest) (text : String) :
    test.Derives text ↔ ∃ tokens, test.Spells tokens ∧ Writes tokens text := by
  simp only [AttributeTest.derives_iff, AttributeTest.Spells, exists_eq_left]

theorem ValueFilter.derives_iff {filter : ValueFilter} {text : String} :
    ValueFilter.Derives text filter ↔
      ∃ tokens, ValueFilter.Spells tokens filter ∧ Writes tokens text :=
  Disjunction.derives_iff AttributeTest.derives_iff_spells

/-- A row in brackets behind another one. -/
theorem writes_bracketed_iff {front inner : List Token} {text : String} :
    Writes (front ++ .openBracket :: (inner ++ [.closeBracket])) text ↔
      ∃ first second, Writes front first ∧ Writes inner second ∧
        first ++ "[" ++ second ++ "]" = text := by
  simp only [writes_append_iff, writes_cons_iff, writes_nil_iff]
  refine ⟨fun h => ?_, fun h => ?_⟩
  · obtain ⟨first, _, hfirst, ⟨-, _, ⟨second, _, hsecond, ⟨-, _, rfl, rfl⟩, rfl⟩, rfl⟩, rfl⟩ := h
    exact ⟨first, second, hfirst, hsecond, by simp [Token.text, String.append_assoc]⟩
  · obtain ⟨first, second, hfirst, hsecond, rfl⟩ := h
    exact ⟨first, _, hfirst, ⟨trivial, _, ⟨second, _, hsecond, ⟨trivial, _, rfl, rfl⟩, rfl⟩, rfl⟩,
      by simp [Token.text, String.append_assoc]⟩

theorem ValuePath.derives_iff {v : ValuePath} {text : String} :
    v.Derives text ↔ ∃ tokens, v.Spells tokens ∧ Writes tokens text := by
  refine ⟨fun h => ?_, fun h => ?_⟩
  · cases h with
    | mk hpath hfilter =>
      obtain ⟨inner, hinner, hwrites⟩ := ValueFilter.derives_iff.mp hfilter
      exact ⟨_, ⟨inner, hinner, rfl⟩, writes_bracketed_iff.mpr
        ⟨_, _, AttributePath.derives_iff.mp hpath, hwrites, rfl⟩⟩
  · obtain ⟨_, ⟨inner, hinner, rfl⟩, hwrites⟩ := h
    obtain ⟨front, second, hpath, hsecond, rfl⟩ := writes_bracketed_iff.mp hwrites
    exact .mk (AttributePath.derives_iff.mpr hpath)
      (ValueFilter.derives_iff.mpr ⟨inner, hinner, hsecond⟩)

theorem Condition.derives_iff (c : Condition) (text : String) :
    c.Derives text ↔ ∃ tokens, c.Spells tokens ∧ Writes tokens text := by
  refine ⟨fun h => ?_, fun h => ?_⟩
  · cases h with
    | test htest => exact (AttributeTest.derives_iff_spells _ _).mp htest
    | values hvalues => exact ValuePath.derives_iff.mp hvalues
  · cases c with
    | test test => exact .test ((AttributeTest.derives_iff_spells _ _).mpr h)
    | values v => exact .values (ValuePath.derives_iff.mpr h)

/-- **A text derives a filter if it is the text of tokens that spell it.** -/
theorem Filter.derives_iff {filter : Filter} {text : String} :
    Filter.Derives text filter ↔ ∃ tokens, Filter.Spells tokens filter ∧ Writes tokens text :=
  Disjunction.derives_iff Condition.derives_iff

/-! ## 4. Acceptance -/

/-- The filters that are read are those that are derived within the limit. -/
theorem Filter.ofText_eq_ok_iff_derives {text : String} {settings : ParseSettings}
    {filter : Filter} :
    Filter.ofText text settings = .ok filter ↔
      Filter.Derives text filter ∧ filter.nesting ≤ settings.nestingLimit := by
  rw [Filter.ofText_eq_ok_iff_spells, Filter.derives_iff]
  simp only [Writes, ← exists_and_right, and_assoc]

/-- No text derives two filters. -/
theorem Filter.derives_unique {text : String} {filter filter' : Filter}
    (h : Filter.Derives text filter) (h' : Filter.Derives text filter') : filter = filter' := by
  -- Both are what the text is read as once the limit admits both.
  let wide : ParseSettings := { nestingLimit := max filter.nesting filter'.nesting }
  have hfilter : Filter.ofText text wide = .ok filter :=
    ofText_eq_ok_iff_derives.mpr ⟨h, Nat.le_max_left _ _⟩
  have hfilter' : Filter.ofText text wide = .ok filter' :=
    ofText_eq_ok_iff_derives.mpr ⟨h', Nat.le_max_right _ _⟩
  exact Except.ok.inj (hfilter.symm.trans hfilter')

/-- **The texts that are accepted are the texts of the grammar**: a text is a
filter if it derives the filter and the filter is nested within the limit,
and no text derives two filters. -/
theorem Filter.ofText_lookahead_iff_derives (text : String) :
    (∀ (filter : Filter) (limit : Nat), Filter.ofText text ⟨.lookahead, limit⟩ = .ok filter ↔
      Filter.Derives text filter ∧ filter.nesting ≤ limit) ∧
    ∀ filter filter' : Filter, Filter.Derives text filter → Filter.Derives text filter' →
      filter = filter' :=
  ⟨fun _ _ => Filter.ofText_eq_ok_iff_derives, fun _ _ h h' => Filter.derives_unique h h'⟩

/-- A group derived without the space, which takes one level of nesting. -/
theorem Filter.ofText_lookahead_not_group :
    Filter.ofText "not(a pr)" ⟨.lookahead, 1⟩ = .ok (.one (.one (.group true
      (.one (.one (.leaf (.test (.present ⟨none, "a", none⟩)))))))) ∧
    Filter.ofText "not(a pr)" ⟨.lookahead, 0⟩ ≠ .ok (.one (.one (.group true
      (.one (.one (.leaf (.test (.present ⟨none, "a", none⟩)))))))) := by
  have hname : AttributeName.IsFree "a" := ⟨by decide, by decide⟩
  have hpath : AttributePath.Derives ("" ++ "a" ++ "") ⟨none, "a", none⟩ := .mk .none hname .none
  have hderives : Filter.Derives ("not" ++ "(" ++ ("" ++ "a" ++ "" ++ " pr") ++ ")")
      (.one (.one (.group true (.one (.one (.leaf (.test (.present ⟨none, "a", none⟩)))))))) :=
    .one (.one (.group .negated (.one (.one (.leaf (.test (.present hpath)))))))
  have htext : "not" ++ "(" ++ ("" ++ "a" ++ "" ++ " pr") ++ ")" = "not(a pr)" := by decide
  rw [htext] at hderives
  refine ⟨((Filter.ofText_lookahead_iff_derives _).1 _ 1).mpr ⟨hderives, Nat.le_refl 1⟩, ?_⟩
  intro h
  exact Nat.not_succ_le_zero 0 (((Filter.ofText_lookahead_iff_derives _).1 _ 0).mp h).2

end ScimQuery
