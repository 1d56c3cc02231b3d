/-
ScimQuery.Proofs.RoundTrip — the trees that are read back from their text.

The constructors take any strings, so not every tree is the tree of a text.
`Filter.WellFormed` says which strings fit in which place. It is as strong
as it has to be: what is read is well formed, whatever text it is read from,
and a well-formed tree is read back from its text by both strategies as soon
as the limit admits its nesting.
-/
import ScimQuery.Proofs.Canonical
import ScimQuery.Proofs.Readability

namespace ScimQuery

open Token

/-! ## 1. Well-formed trees -/

/-- The schema is a URN, and the names are attribute names and no keywords. -/
structure AttributePath.WellFormed (path : AttributePath) : Prop where
  schema : ∀ urn ∈ path.schema, SchemaUrn.isValid urn.toList = true
  name : AttributeName.IsFree path.name
  sub : ∀ name ∈ path.sub, AttributeName.IsFree name

/-- A number is one of JSON, and a string is what the lexer reads as one
string and nothing behind it. -/
def Literal.WellFormed : Literal → Prop
  | .constant _ => True
  | .number text => Number.IsNumber text.toList
  | .string text => Token.ofText text = .ok [⟨0, .string text⟩, ⟨text.length, .eof⟩]

/-- The path and the literal are well formed. -/
def AttributeTest.WellFormed : AttributeTest → Prop
  | .present path => path.WellFormed
  | .compare path _ literal => path.WellFormed ∧ literal.WellFormed

section Combinations

variable {α : Type}

mutual

/-- All conditions of a disjunction have the property. -/
def Disjunction.All (p : α → Prop) : Disjunction α → Prop
  | .one c => c.All p
  | .or c d => c.All p ∧ d.All p

/-- All conditions of a conjunction have the property. -/
def Conjunction.All (p : α → Prop) : Conjunction α → Prop
  | .one o => o.All p
  | .and o c => o.All p ∧ c.All p

/-- All conditions of an operand have the property. -/
def Operand.All (p : α → Prop) : Operand α → Prop
  | .leaf a => p a
  | .group _ d => d.All p

end

end Combinations

/-- The path and all tests of the filter are well formed. -/
def ValuePath.WellFormed (v : ValuePath) : Prop :=
  v.path.WellFormed ∧ v.filter.All AttributeTest.WellFormed

/-- The test or the filtered values are well formed. -/
def Condition.WellFormed : Condition → Prop
  | .test t => t.WellFormed
  | .values v => v.WellFormed

/-- All conditions of the filter are well formed. -/
def Filter.WellFormed (filter : Filter) : Prop :=
  Disjunction.All Condition.WellFormed filter

/-- The parts of the path are well formed. -/
def Path.WellFormed : Path → Prop
  | .attribute a => a.WellFormed
  | .values v sub => v.WellFormed ∧ ∀ name ∈ sub, AttributeName.IsFree name
  | .test t => t.WellFormed

/-! ## 2. Well-formed trees and well-formed tokens -/

theorem allWellFormed_schemaTokens_iff {schema : Option String} :
    AllWellFormed (schemaTokens schema) ↔
      ∀ urn ∈ schema, SchemaUrn.isValid urn.toList = true := by
  cases schema <;> simp [schemaTokens, IsWellFormed]

theorem allWellFormed_subTokens_iff {sub : Option String} :
    AllWellFormed (subTokens sub) ↔ ∀ name ∈ sub, AttributeName.IsFree name := by
  cases sub <;> simp [subTokens, IsWellFormed]

theorem AttributePath.allWellFormed_iff {path : AttributePath} :
    AllWellFormed path.tokens ↔ path.WellFormed := by
  rw [tokens, allWellFormed_append, allWellFormed_cons, allWellFormed_schemaTokens_iff,
    allWellFormed_subTokens_iff]
  exact ⟨fun h => ⟨h.1, h.2.1, h.2.2⟩, fun h => ⟨h.schema, h.name, h.sub⟩⟩

theorem Literal.isWellFormed_token_iff {l : Literal} : l.token.IsWellFormed ↔ l.WellFormed := by
  cases l with
  | constant value => exact Iff.rfl
  | number literal => exact Iff.rfl
  | string literal => exact ofText_string_iff.symm

theorem AttributeTest.allWellFormed_iff {test : AttributeTest} :
    AllWellFormed test.tokens ↔ test.WellFormed := by
  rw [tokens, allWellFormed_append, AttributePath.allWellFormed_iff]
  cases test with
  | present path => simp [tail, IsWellFormed, AttributeTest.path, WellFormed]
  | compare path operator l =>
    simp only [tail, allWellFormed_cons, allWellFormed_nil, Literal.isWellFormed_token_iff,
      AttributeTest.path, WellFormed, and_true]
    exact ⟨fun h => ⟨h.1, h.2.2.2.2⟩, fun h => ⟨h.1, trivial, trivial, trivial, h.2⟩⟩

theorem Opens.allWellFormed {negated : Bool} {opening : List Token} (h : Opens negated opening) :
    AllWellFormed opening := by
  cases h <;> simp [IsWellFormed]

theorem Connective.allWellFormed (connective : Connective) : AllWellFormed connective.tokens := by
  simp [Connective.tokens, IsWellFormed]

section Combinations

variable {α : Type} {leaf : List Token → α → Prop} {p : α → Prop}

mutual

/-- A combination has well-formed conditions if its tokens are well formed. -/
theorem Disjunction.allWellFormed_iff
    (hleaf : ∀ tokens a, leaf tokens a → (AllWellFormed tokens ↔ p a)) {tokens : List Token} :
    ∀ {d : Disjunction α}, d.Spells leaf tokens → (AllWellFormed tokens ↔ d.All p)
  | .one c, h => by
      cases h with
      | one hc => exact Conjunction.allWellFormed_iff hleaf hc
  | .or c d, h => by
      cases h with
      | or hc hd =>
        simp only [allWellFormed_append, Connective.allWellFormed, and_true, Disjunction.All,
          Conjunction.allWellFormed_iff hleaf hc, Disjunction.allWellFormed_iff hleaf hd]

theorem Conjunction.allWellFormed_iff
    (hleaf : ∀ tokens a, leaf tokens a → (AllWellFormed tokens ↔ p a)) {tokens : List Token} :
    ∀ {c : Conjunction α}, c.Spells leaf tokens → (AllWellFormed tokens ↔ c.All p)
  | .one o, h => by
      cases h with
      | one ho => exact Operand.allWellFormed_iff hleaf ho
  | .and o c, h => by
      cases h with
      | and ho hc =>
        simp only [allWellFormed_append, Connective.allWellFormed, and_true, Conjunction.All,
          Operand.allWellFormed_iff hleaf ho, Conjunction.allWellFormed_iff hleaf hc]

theorem Operand.allWellFormed_iff
    (hleaf : ∀ tokens a, leaf tokens a → (AllWellFormed tokens ↔ p a)) {tokens : List Token} :
    ∀ {o : Operand α}, o.Spells leaf tokens → (AllWellFormed tokens ↔ o.All p)
  | .leaf a, h => by
      cases h with
      | leaf ha => exact hleaf _ a ha
  | .group negated d, h => by
      cases h with
      | group hopens hd =>
        have hclose : AllWellFormed [.closeParen] := by simp [IsWellFormed]
        simp only [allWellFormed_append, hopens.allWellFormed, hclose, true_and, and_true,
          Operand.All, Disjunction.allWellFormed_iff hleaf hd]

end

end Combinations

theorem AttributeTest.allWellFormed_iff_of_spells (tokens : List Token) (test : AttributeTest)
    (h : test.Spells tokens) : AllWellFormed tokens ↔ test.WellFormed := by
  rw [h, AttributeTest.allWellFormed_iff]

theorem ValuePath.allWellFormed_iff {tokens : List Token} {v : ValuePath} (h : v.Spells tokens) :
    AllWellFormed tokens ↔ v.WellFormed := by
  obtain ⟨inner, hinner, rfl⟩ := h
  have hfilter : AllWellFormed inner ↔ v.filter.All AttributeTest.WellFormed :=
    Disjunction.allWellFormed_iff AttributeTest.allWellFormed_iff_of_spells hinner
  simp [AttributePath.allWellFormed_iff, IsWellFormed, hfilter, WellFormed]

theorem Condition.allWellFormed_iff (tokens : List Token) (c : Condition) (h : c.Spells tokens) :
    AllWellFormed tokens ↔ c.WellFormed := by
  cases c with
  | test test => exact AttributeTest.allWellFormed_iff_of_spells tokens test h
  | values v => exact ValuePath.allWellFormed_iff h

/-- **The trees of well-formed tokens are the well-formed trees.** -/
theorem Filter.allWellFormed_iff {tokens : List Token} {filter : Filter}
    (h : Filter.Spells tokens filter) : AllWellFormed tokens ↔ filter.WellFormed :=
  Disjunction.allWellFormed_iff Condition.allWellFormed_iff h

theorem Path.allWellFormed_iff {tokens : List Token} {path : Path} (h : path.Spells tokens) :
    AllWellFormed tokens ↔ path.WellFormed := by
  cases path with
  | «attribute» a =>
    rw [show tokens = a.tokens from h]
    exact AttributePath.allWellFormed_iff
  | values v sub =>
    obtain ⟨inner, hv, rfl⟩ := h
    rw [allWellFormed_append, ValuePath.allWellFormed_iff hv, allWellFormed_subTokens_iff,
      WellFormed]
  | test test => exact AttributeTest.allWellFormed_iff_of_spells tokens test h

/-! ## 3. Reading a tree back -/

/-- What is read is well formed and within the limit. -/
theorem Filter.wellFormed_of_ofText {text : String} {settings : ParseSettings} {filter : Filter}
    (h : Filter.ofText text settings = .ok filter) :
    filter.WellFormed ∧ filter.nesting ≤ settings.nestingLimit := by
  obtain ⟨tokens, hspells, hwell, -, hnesting⟩ := Filter.ofText_eq_ok_iff_spells.mp h
  exact ⟨(Filter.allWellFormed_iff hspells).mp hwell, hnesting⟩

theorem Path.wellFormed_of_ofText {text : String} {settings : ParseSettings} {path : Path}
    (h : Path.ofText text settings = .ok path) :
    path.WellFormed ∧ path.nesting ≤ settings.nestingLimit := by
  obtain ⟨tokens, hspells, hwell, -, hnesting⟩ := Path.ofText_eq_ok_iff_spells.mp h
  exact ⟨(Path.allWellFormed_iff hspells).mp hwell, hnesting⟩

/-- A well-formed filter within the limit is read back from its text. -/
theorem Filter.ofText_text {settings : ParseSettings} {filter : Filter} (hwell : filter.WellFormed)
    (hnesting : filter.nesting ≤ settings.nestingLimit) :
    Filter.ofText filter.text settings = .ok filter :=
  Filter.ofText_eq_ok_iff_spells.mpr ⟨filter.tokens, filter.spells_tokens,
    (Filter.allWellFormed_iff filter.spells_tokens).mpr hwell, filter.textOf_tokens, hnesting⟩

theorem Path.ofText_text {settings : ParseSettings} {path : Path} (hwell : path.WellFormed)
    (hnesting : path.nesting ≤ settings.nestingLimit) :
    Path.ofText path.text settings = .ok path :=
  Path.ofText_eq_ok_iff_spells.mpr ⟨path.tokens, path.spells_tokens,
    (Path.allWellFormed_iff path.spells_tokens).mpr hwell, path.textOf_tokens, hnesting⟩

/-- **Which trees are read back from their text**: by either strategy and
within every limit, the well-formed trees that are nested within it. -/
theorem ofText_text_iff (settings : ParseSettings) :
    (∀ filter : Filter, Filter.ofText filter.text settings = .ok filter ↔
      filter.WellFormed ∧ filter.nesting ≤ settings.nestingLimit) ∧
    ∀ path : Path, Path.ofText path.text settings = .ok path ↔
      path.WellFormed ∧ path.nesting ≤ settings.nestingLimit := by
  refine ⟨fun filter => ⟨fun h => ?_, fun h => ?_⟩, fun path => ⟨fun h => ?_, fun h => ?_⟩⟩
  · exact Filter.wellFormed_of_ofText h
  · exact Filter.ofText_text h.1 h.2
  · exact Path.wellFormed_of_ofText h
  · exact Path.ofText_text h.1 h.2

end ScimQuery
