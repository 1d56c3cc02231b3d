/-
ScimQuery.Proofs.Canonical — the tokens that a tree is written with.

The only freedom of the grammar is the space between `not` and the
parenthesis behind it. `Filter.tokens` and `Path.tokens` always have it, and
their text is the text of the tree (`Filter.textOf_tokens`). `spaced` puts
the missing ones into any row of tokens, and takes every row that spells a
tree to the canonical one (`Filter.spaced_of_spells`).
-/
import ScimQuery.Proofs.Lexing
import ScimQuery.Proofs.Spelling

namespace ScimQuery

open Token

/-! ## 1. The space behind `not` -/

/-- The tokens with a space put between every `not` and a parenthesis that
follows it directly. -/
def spaced : List Token → List Token
  | [] => []
  | token :: rest =>
    token ::
      if token = .keyword .negation ∧ rest.head? = some .openParen then .space :: spaced rest
      else spaced rest

/-- A token other than `not` stays as it is. -/
theorem spaced_cons_of_ne {token : Token} (h : token ≠ .keyword .negation) (rest : List Token) :
    spaced (token :: rest) = token :: spaced rest := by
  simp [spaced, h]

/-- A row that starts with no parenthesis may be put behind any other. -/
theorem spaced_append {front rest : List Token} (h : rest.head? ≠ some .openParen) :
    spaced (front ++ rest) = spaced front ++ spaced rest := by
  induction front with
  | nil => rfl
  | cons token front ih =>
    have hhead : (front ++ rest).head? = some .openParen ↔ front.head? = some .openParen := by
      cases front with
      | nil => simp [h]
      | cons first front => simp
    simp only [List.cons_append, spaced, hhead, ih]
    split <;> rfl

/-- Nothing is missing where no parenthesis follows `not` directly. -/
theorem spaced_of_not_infix {tokens : List Token}
    (h : ¬ [.keyword .negation, .openParen] <:+: tokens) : spaced tokens = tokens := by
  induction tokens with
  | nil => rfl
  | cons token rest ih =>
    have hrest : ¬ [.keyword .negation, .openParen] <:+: rest :=
      fun hwithin => h (hwithin.trans (List.infix_cons (List.infix_refl rest)))
    have htight : ¬ (token = .keyword .negation ∧ rest.head? = some .openParen) := by
      intro ⟨htoken, hhead⟩
      obtain ⟨behind, hrest⟩ := List.head?_eq_some_iff.mp hhead
      subst htoken hrest
      exact h ⟨[], behind, rfl⟩
    rw [spaced, if_neg htight, ih hrest]

/-- Nothing is missing where no group is. -/
theorem spaced_of_not_mem {tokens : List Token} (h : .openParen ∉ tokens) :
    spaced tokens = tokens :=
  spaced_of_not_infix fun hwithin => h (hwithin.subset (by simp))

/-! ## 2. Canonical tokens -/

section Combinations

variable {α : Type}

mutual

/-- The canonical tokens of a disjunction, given those of a condition. -/
def Disjunction.tokens (leaf : α → List Token) : Disjunction α → List Token
  | .one c => c.tokens leaf
  | .or c d => c.tokens leaf ++ Connective.or.tokens ++ d.tokens leaf

/-- The canonical tokens of a conjunction, given those of a condition. -/
def Conjunction.tokens (leaf : α → List Token) : Conjunction α → List Token
  | .one o => o.tokens leaf
  | .and o c => o.tokens leaf ++ Connective.and.tokens ++ c.tokens leaf

/-- The canonical tokens of an operand, with a space behind every `not`. -/
def Operand.tokens (leaf : α → List Token) : Operand α → List Token
  | .leaf a => leaf a
  | .group negated d =>
    (if negated then [.keyword .negation, .space, .openParen] else [.openParen]) ++
      d.tokens leaf ++ [.closeParen]

end

end Combinations

/-- The canonical tokens of a filter in brackets. -/
def ValueFilter.tokens (filter : ValueFilter) : List Token :=
  Disjunction.tokens AttributeTest.tokens filter

/-- The canonical tokens of filtered values. -/
def ValuePath.tokens (v : ValuePath) : List Token :=
  v.path.tokens ++ .openBracket :: (ValueFilter.tokens v.filter ++ [.closeBracket])

/-- The canonical tokens of a condition. -/
def Condition.tokens : Condition → List Token
  | .test t => t.tokens
  | .values v => v.tokens

/-- The canonical tokens of a filter. -/
def Filter.tokens (filter : Filter) : List Token :=
  Disjunction.tokens Condition.tokens filter

/-- The canonical tokens of a path. -/
def Path.tokens : Path → List Token
  | .attribute a => a.tokens
  | .values v sub => v.tokens ++ subTokens sub
  | .test t => t.tokens

/-! ## 3. Their text -/

@[simp] theorem textOf_schemaTokens (schema : Option String) :
    textOf (schemaTokens schema) = schemaText schema := by
  cases schema <;> simp [schemaTokens, schemaText, Token.text]

@[simp] theorem textOf_subTokens (sub : Option String) : textOf (subTokens sub) = subText sub := by
  cases sub <;> simp [subTokens, subText, Token.text]

@[simp] theorem textOf_connective (connective : Connective) :
    textOf connective.tokens = connective.text := by
  simp [Connective.tokens, Connective.text, Token.text, Keyword.word, String.append_assoc]

@[simp] theorem AttributePath.textOf_tokens (path : AttributePath) :
    textOf path.tokens = path.text := by
  simp [tokens, text, Token.text, String.append_assoc]

@[simp] theorem AttributeTest.textOf_tokens (test : AttributeTest) :
    textOf test.tokens = test.text := by
  cases test with
  | present path => simp [tokens, tail, AttributeTest.path, text, Token.text, String.append_assoc]
  | compare path operator l =>
    cases l <;>
      simp [tokens, tail, AttributeTest.path, text, Token.text, Literal.token, Literal.text,
        Keyword.word, String.append_assoc]

section Combinations

variable {α : Type} {leafTokens : α → List Token} {leafText : α → String}

mutual

/-- The canonical tokens of a combination have its text. -/
theorem Disjunction.textOf_tokens (hleaf : ∀ a, textOf (leafTokens a) = leafText a) :
    ∀ d : Disjunction α, textOf (d.tokens leafTokens) = d.text leafText
  | .one c => by rw [Disjunction.tokens, Disjunction.text, Conjunction.textOf_tokens hleaf c]
  | .or c d => by
      rw [Disjunction.tokens, Disjunction.text, textOf_append, textOf_append,
        Conjunction.textOf_tokens hleaf c, textOf_connective, Disjunction.textOf_tokens hleaf d]

theorem Conjunction.textOf_tokens (hleaf : ∀ a, textOf (leafTokens a) = leafText a) :
    ∀ c : Conjunction α, textOf (c.tokens leafTokens) = c.text leafText
  | .one o => by rw [Conjunction.tokens, Conjunction.text, Operand.textOf_tokens hleaf o]
  | .and o c => by
      rw [Conjunction.tokens, Conjunction.text, textOf_append, textOf_append,
        Operand.textOf_tokens hleaf o, textOf_connective, Conjunction.textOf_tokens hleaf c]

theorem Operand.textOf_tokens (hleaf : ∀ a, textOf (leafTokens a) = leafText a) :
    ∀ o : Operand α, textOf (o.tokens leafTokens) = o.text leafText
  | .leaf a => by rw [Operand.tokens, Operand.text, hleaf a]
  | .group negated d => by
      rw [Operand.tokens, Operand.text, textOf_append, textOf_append,
        Disjunction.textOf_tokens hleaf d]
      cases negated <;> simp [Token.text, String.append_assoc]

end

end Combinations

@[simp] theorem ValuePath.textOf_tokens (v : ValuePath) : textOf v.tokens = v.text := by
  have hfilter : textOf (ValueFilter.tokens v.filter) = ValueFilter.text v.filter :=
    Disjunction.textOf_tokens AttributeTest.textOf_tokens v.filter
  simp [tokens, text, hfilter, Token.text, String.append_assoc]

theorem Condition.textOf_tokens (c : Condition) : textOf c.tokens = c.text := by
  cases c <;> simp [tokens, text]

/-- **The text of a filter is that of its canonical tokens.** -/
theorem Filter.textOf_tokens (filter : Filter) : textOf filter.tokens = filter.text :=
  Disjunction.textOf_tokens Condition.textOf_tokens filter

/-- **The text of a path is that of its canonical tokens.** -/
theorem Path.textOf_tokens (path : Path) : textOf path.tokens = path.text := by
  cases path <;> simp [tokens, text]

/-! ## 4. They spell the tree -/

section Combinations

variable {α : Type} {leaf : List Token → α → Prop} {leafTokens : α → List Token}

mutual

theorem Disjunction.spells_tokens (hleaf : ∀ a, leaf (leafTokens a) a) :
    ∀ d : Disjunction α, d.Spells leaf (d.tokens leafTokens)
  | .one c => .one (Conjunction.spells_tokens hleaf c)
  | .or c d => .or (Conjunction.spells_tokens hleaf c) (Disjunction.spells_tokens hleaf d)

theorem Conjunction.spells_tokens (hleaf : ∀ a, leaf (leafTokens a) a) :
    ∀ c : Conjunction α, c.Spells leaf (c.tokens leafTokens)
  | .one o => .one (Operand.spells_tokens hleaf o)
  | .and o c => .and (Operand.spells_tokens hleaf o) (Conjunction.spells_tokens hleaf c)

theorem Operand.spells_tokens (hleaf : ∀ a, leaf (leafTokens a) a) :
    ∀ o : Operand α, o.Spells leaf (o.tokens leafTokens)
  | .leaf a => .leaf (hleaf a)
  | .group false d => .group .plain (Disjunction.spells_tokens hleaf d)
  | .group true d => .group .spaced (Disjunction.spells_tokens hleaf d)

end

end Combinations

theorem AttributeTest.spells_tokens (test : AttributeTest) : test.Spells test.tokens := rfl

theorem ValueFilter.spells_tokens (filter : ValueFilter) :
    ValueFilter.Spells (ValueFilter.tokens filter) filter :=
  Disjunction.spells_tokens AttributeTest.spells_tokens filter

theorem ValuePath.spells_tokens (v : ValuePath) : v.Spells v.tokens :=
  ⟨_, ValueFilter.spells_tokens v.filter, rfl⟩

theorem Condition.spells_tokens : ∀ c : Condition, c.Spells c.tokens
  | .test _ => rfl
  | .values v => v.spells_tokens

/-- **The canonical tokens of a filter spell it.** -/
theorem Filter.spells_tokens (filter : Filter) : Filter.Spells filter.tokens filter :=
  Disjunction.spells_tokens Condition.spells_tokens filter

/-- **The canonical tokens of a path spell it.** -/
theorem Path.spells_tokens : ∀ path : Path, path.Spells path.tokens
  | .attribute _ => rfl
  | .values v _ => ⟨_, v.spells_tokens, rfl⟩
  | .test _ => rfl

/-! ## 5. Every spelling with its spaces is canonical -/

theorem AttributePath.openParen_not_mem (path : AttributePath) : .openParen ∉ path.tokens := by
  obtain ⟨schema, name, sub⟩ := path
  cases schema <;> cases sub <;> simp [tokens, schemaTokens, subTokens]

theorem AttributeTest.openParen_not_mem (test : AttributeTest) : .openParen ∉ test.tokens := by
  rw [tokens, List.mem_append, not_or]
  refine ⟨test.path.openParen_not_mem, ?_⟩
  cases test with
  | present path => simp [tail]
  | compare path operator l => cases l <;> simp [tail, Literal.token]

theorem AttributeTest.spaced_of_spells (tokens : List Token) (test : AttributeTest)
    (h : test.Spells tokens) : spaced tokens = test.tokens := by
  rw [h, spaced_of_not_mem test.openParen_not_mem]

theorem spaced_opening {negated : Bool} {opening : List Token} (h : Opens negated opening)
    (rest : List Token) :
    spaced (opening ++ rest) =
      (if negated then [.keyword .negation, .space, .openParen] else [.openParen]) ++
        spaced rest := by
  cases h <;> simp [spaced]

/-- A connective starts with a space and ends with one. -/
theorem spaced_joined (front rest : List Token) (connective : Connective) :
    spaced (front ++ connective.tokens ++ rest) =
      spaced front ++ connective.tokens ++ spaced rest := by
  rw [List.append_assoc, spaced_append (by simp [Connective.tokens]), List.append_assoc]
  simp [Connective.tokens, spaced]

section Combinations

variable {α : Type} {leaf : List Token → α → Prop} {leafTokens : α → List Token}

mutual

theorem Disjunction.spaced_of_spells
    (hleaf : ∀ tokens a, leaf tokens a → spaced tokens = leafTokens a) {tokens : List Token} :
    ∀ {d : Disjunction α}, d.Spells leaf tokens → spaced tokens = d.tokens leafTokens
  | .one c, h => by
      cases h with
      | one hc => exact Conjunction.spaced_of_spells hleaf hc
  | .or c d, h => by
      cases h with
      | or hc hd =>
        rw [spaced_joined, Conjunction.spaced_of_spells hleaf hc,
          Disjunction.spaced_of_spells hleaf hd, Disjunction.tokens]

theorem Conjunction.spaced_of_spells
    (hleaf : ∀ tokens a, leaf tokens a → spaced tokens = leafTokens a) {tokens : List Token} :
    ∀ {c : Conjunction α}, c.Spells leaf tokens → spaced tokens = c.tokens leafTokens
  | .one o, h => by
      cases h with
      | one ho => exact Operand.spaced_of_spells hleaf ho
  | .and o c, h => by
      cases h with
      | and ho hc =>
        rw [spaced_joined, Operand.spaced_of_spells hleaf ho,
          Conjunction.spaced_of_spells hleaf hc, Conjunction.tokens]

theorem Operand.spaced_of_spells
    (hleaf : ∀ tokens a, leaf tokens a → spaced tokens = leafTokens a) {tokens : List Token} :
    ∀ {o : Operand α}, o.Spells leaf tokens → spaced tokens = o.tokens leafTokens
  | .leaf a, h => by
      cases h with
      | leaf ha => exact hleaf _ a ha
  | .group negated d, h => by
      cases h with
      | group hopens hd =>
        rw [List.append_assoc, spaced_opening hopens, spaced_append (by simp),
          Disjunction.spaced_of_spells hleaf hd, Operand.tokens, List.append_assoc]
        rfl

end

end Combinations

theorem ValuePath.spaced_of_spells {tokens : List Token} {v : ValuePath} (h : v.Spells tokens) :
    spaced tokens = v.tokens := by
  obtain ⟨inner, hinner, rfl⟩ := h
  have hfilter : spaced inner = ValueFilter.tokens v.filter :=
    Disjunction.spaced_of_spells AttributeTest.spaced_of_spells hinner
  rw [spaced_append (by simp), spaced_of_not_mem v.path.openParen_not_mem,
    spaced_cons_of_ne (by simp), spaced_append (by simp), hfilter, ValuePath.tokens]
  rfl

theorem Condition.spaced_of_spells (tokens : List Token) (c : Condition) (h : c.Spells tokens) :
    spaced tokens = c.tokens := by
  cases c with
  | test test => exact AttributeTest.spaced_of_spells tokens test h
  | values v => exact ValuePath.spaced_of_spells h

/-- **Every spelling of a filter becomes its canonical one.** -/
theorem Filter.spaced_of_spells {tokens : List Token} {filter : Filter}
    (h : Filter.Spells tokens filter) : spaced tokens = filter.tokens :=
  Disjunction.spaced_of_spells Condition.spaced_of_spells h

/-- **Every spelling of a path becomes its canonical one.** -/
theorem Path.spaced_of_spells {tokens : List Token} {path : Path} (h : path.Spells tokens) :
    spaced tokens = path.tokens := by
  cases path with
  | «attribute» a =>
    rw [show tokens = a.tokens from h, spaced_of_not_mem a.openParen_not_mem, Path.tokens]
  | values v sub =>
    obtain ⟨inner, hv, rfl⟩ := h
    have hsub : spaced (subTokens sub) = subTokens sub := by cases sub <;> simp [subTokens, spaced]
    rw [spaced_append (by cases sub <;> simp [subTokens]), ValuePath.spaced_of_spells hv, hsub,
      Path.tokens]
  | test test => exact AttributeTest.spaced_of_spells tokens test h

end ScimQuery
