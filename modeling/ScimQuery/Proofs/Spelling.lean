/-
ScimQuery.Proofs.Spelling — the grammar of the query language over tokens.

`d.Spells leaf tokens` says that the tokens spell the disjunction `d`, given
what spells a condition. The grammar has one freedom: a space may stand
between `not` and the parenthesis behind it. Everything else has one
spelling, so the phrases without groups come with a function that gives
their tokens.

A text has its operands in one row, and `Disjunction.ofSequence` puts them
together. `spells_ofSequence` says that nothing is lost by that: the tokens
spell the disjunction of a row if they spell the row.

How deep groups and brackets are nested is `nesting`.
-/
import ScimQuery.Filter

namespace ScimQuery

/-! ## 1. Phrases with one spelling -/

/-- The tokens of a schema and the colon behind it. -/
def schemaTokens : Option String → List Token
  | none => []
  | some urn => [.urn urn, .colon]

/-- The tokens of a sub-attribute and the dot in front of it. -/
def subTokens : Option String → List Token
  | none => []
  | some name => [.dot, .attribute name]

/-- The tokens of an attribute path. -/
def AttributePath.tokens (path : AttributePath) : List Token :=
  schemaTokens path.schema ++ .attribute path.name :: subTokens path.sub

/-- The token of a literal. -/
def Literal.token : Literal → Token
  | .constant value => .keyword (.constant value)
  | .number text => .number text
  | .string text => .string text

theorem Literal.token_ne_eof (l : Literal) : l.token ≠ .eof := by
  cases l <;> simp [token]

/-- The tokens of a test behind the attribute path. -/
def AttributeTest.tail : AttributeTest → List Token
  | .present _ => [.space, .keyword .present]
  | .compare _ operator literal =>
    [.space, .keyword (.comparison operator), .space, literal.token]

/-- The tokens of a test. -/
def AttributeTest.tokens (test : AttributeTest) : List Token :=
  test.path.tokens ++ test.tail

/-- The tokens of a connective and the spaces around it. -/
def Connective.tokens (connective : Connective) : List Token :=
  [.space, .keyword (.connective connective), .space]

/-! ## 2. Combinations -/

/-- What opens a group: a parenthesis, and `not` in front of it with or
without a space between the two. -/
inductive Opens : Bool → List Token → Prop where
  | plain : Opens false [.openParen]
  | negated : Opens true [.keyword .negation, .openParen]
  | spaced : Opens true [.keyword .negation, .space, .openParen]

/-- What may stand in front of the parenthesis that opens a group. -/
theorem opens_append_iff {negated : Bool} {front : List Token} :
    Opens negated (front ++ [.openParen]) ↔
      (negated = false ∧ front = []) ∨ (negated = true ∧ front = [.keyword .negation]) ∨
        (negated = true ∧ front = [.keyword .negation, .space]) := by
  have hcancel {tokens : List Token} :
      front ++ [.openParen] = tokens ++ [.openParen] ↔ front = tokens :=
    List.append_left_inj _
  constructor
  · intro h
    generalize hopening : front ++ [Token.openParen] = opening at h
    cases h with
    | plain => exact .inl ⟨rfl, hcancel.mp hopening⟩
    | negated => exact .inr (.inl ⟨rfl, hcancel.mp hopening⟩)
    | spaced => exact .inr (.inr ⟨rfl, hcancel.mp hopening⟩)
  · intro h'
    obtain ⟨rfl, rfl⟩ | ⟨rfl, rfl⟩ | ⟨rfl, rfl⟩ := h'
    · exact .plain
    · exact .negated
    · exact .spaced

/-- What opens a group ends with the parenthesis. -/
theorem Opens.exists_append {negated : Bool} {opening : List Token} (h : Opens negated opening) :
    ∃ front, opening = front ++ [.openParen] := by
  cases h with
  | plain => exact ⟨[], rfl⟩
  | negated => exact ⟨[.keyword .negation], rfl⟩
  | spaced => exact ⟨[.keyword .negation, .space], rfl⟩

mutual

/-- The tokens spell a disjunction, given what spells a condition. -/
inductive Disjunction.Spells {α : Type} (leaf : List Token → α → Prop) :
    List Token → Disjunction α → Prop where
  | one {tokens : List Token} {c : Conjunction α} :
      Conjunction.Spells leaf tokens c → Disjunction.Spells leaf tokens (.one c)
  | or {front rest : List Token} {c : Conjunction α} {d : Disjunction α} :
      Conjunction.Spells leaf front c → Disjunction.Spells leaf rest d →
      Disjunction.Spells leaf (front ++ Connective.or.tokens ++ rest) (.or c d)

/-- The tokens spell a conjunction. -/
inductive Conjunction.Spells {α : Type} (leaf : List Token → α → Prop) :
    List Token → Conjunction α → Prop where
  | one {tokens : List Token} {o : Operand α} :
      Operand.Spells leaf tokens o → Conjunction.Spells leaf tokens (.one o)
  | and {front rest : List Token} {o : Operand α} {c : Conjunction α} :
      Operand.Spells leaf front o → Conjunction.Spells leaf rest c →
      Conjunction.Spells leaf (front ++ Connective.and.tokens ++ rest) (.and o c)

/-- The tokens spell an operand. -/
inductive Operand.Spells {α : Type} (leaf : List Token → α → Prop) :
    List Token → Operand α → Prop where
  | leaf {tokens : List Token} {a : α} : leaf tokens a → Operand.Spells leaf tokens (.leaf a)
  | group {negated : Bool} {opening tokens : List Token} {d : Disjunction α} :
      Opens negated opening → Disjunction.Spells leaf tokens d →
      Operand.Spells leaf (opening ++ tokens ++ [.closeParen]) (.group negated d)

end

/-- The tokens spell a test. -/
def AttributeTest.Spells (tokens : List Token) (test : AttributeTest) : Prop :=
  tokens = test.tokens

/-- The tokens spell a filter in brackets. -/
def ValueFilter.Spells (tokens : List Token) (filter : ValueFilter) : Prop :=
  Disjunction.Spells AttributeTest.Spells tokens filter

/-- The tokens spell the filtered values of an attribute. -/
def ValuePath.Spells (tokens : List Token) (values : ValuePath) : Prop :=
  ∃ inner, ValueFilter.Spells inner values.filter ∧
    tokens = values.path.tokens ++ .openBracket :: (inner ++ [.closeBracket])

/-- The tokens spell a condition. -/
def Condition.Spells (tokens : List Token) : Condition → Prop
  | .test t => AttributeTest.Spells tokens t
  | .values v => ValuePath.Spells tokens v

/-- The tokens spell a filter. -/
def Filter.Spells (tokens : List Token) (filter : Filter) : Prop :=
  Disjunction.Spells Condition.Spells tokens filter

/-- The tokens spell a path. -/
def Path.Spells (tokens : List Token) : Path → Prop
  | .attribute path => tokens = path.tokens
  | .values v sub => ∃ inner, ValuePath.Spells inner v ∧ tokens = inner ++ subTokens sub
  | .test t => AttributeTest.Spells tokens t

/-! ## 3. Nesting -/

mutual

/-- How deep the groups of a disjunction are nested, given how deep a
condition is. -/
def Disjunction.nesting {α : Type} (leaf : α → Nat) : Disjunction α → Nat
  | .one c => c.nesting leaf
  | .or c d => max (c.nesting leaf) (d.nesting leaf)

/-- How deep the groups of a conjunction are nested. -/
def Conjunction.nesting {α : Type} (leaf : α → Nat) : Conjunction α → Nat
  | .one o => o.nesting leaf
  | .and o c => max (o.nesting leaf) (c.nesting leaf)

/-- A group is one level deeper than what is in it. -/
def Operand.nesting {α : Type} (leaf : α → Nat) : Operand α → Nat
  | .leaf a => leaf a
  | .group _ d => d.nesting leaf + 1

end

/-- How deep the groups of a filter in brackets are nested. -/
def ValueFilter.nesting (filter : ValueFilter) : Nat :=
  Disjunction.nesting (fun _ => 0) filter

/-- The brackets are one level deeper than what is in them. -/
def ValuePath.nesting (values : ValuePath) : Nat :=
  ValueFilter.nesting values.filter + 1

/-- How deep groups and brackets are nested in a condition. -/
def Condition.nesting : Condition → Nat
  | .test _ => 0
  | .values v => v.nesting

/-- How deep groups and brackets are nested in a filter. -/
def Filter.nesting (filter : Filter) : Nat :=
  Disjunction.nesting Condition.nesting filter

/-- How deep groups and brackets are nested in a path. -/
def Path.nesting : Path → Nat
  | .attribute _ => 0
  | .values v _ => v.nesting
  | .test _ => 0

/-! ## 4. Rows of operands -/

section Rows

variable {α : Type}

/-- The tokens spell operands with a connective in front of each. -/
inductive Continues (operand : List Token → Operand α → Prop) :
    List Token → List (Connective × Operand α) → Prop where
  | nil : Continues operand [] []
  | cons {front tokens : List Token} {connective : Connective} {o : Operand α}
      {rest : List (Connective × Operand α)} :
      operand front o → Continues operand tokens rest →
      Continues operand (connective.tokens ++ front ++ tokens) ((connective, o) :: rest)

variable {leaf : List Token → α → Prop} {size : α → Nat} {n : Nat} {tokens : List Token}

theorem continues_nil_iff {operand : List Token → Operand α → Prop} :
    Continues operand tokens [] ↔ tokens = [] :=
  ⟨fun h => by cases h; rfl, fun h => h ▸ .nil⟩

theorem continues_cons_iff {operand : List Token → Operand α → Prop} {connective : Connective}
    {o : Operand α} {rest : List (Connective × Operand α)} :
    Continues operand tokens ((connective, o) :: rest) ↔
      ∃ front behind, operand front o ∧ Continues operand behind rest ∧
        tokens = connective.tokens ++ front ++ behind := by
  constructor
  · intro h
    obtain _ | ⟨ho, hrest⟩ := h
    exact ⟨_, _, ho, hrest, rfl⟩
  · intro h
    obtain ⟨front, behind, ho, hrest, rfl⟩ := h
    exact .cons ho hrest

theorem Disjunction.spells_one_iff {c : Conjunction α} :
    (Disjunction.one c).Spells leaf tokens ↔ c.Spells leaf tokens :=
  ⟨fun h => by cases h; assumption, .one⟩

theorem Conjunction.spells_one_iff {o : Operand α} :
    (Conjunction.one o).Spells leaf tokens ↔ o.Spells leaf tokens :=
  ⟨fun h => by cases h; assumption, .one⟩

theorem Disjunction.spells_or_iff {c : Conjunction α} {d : Disjunction α} :
    (Disjunction.or c d).Spells leaf tokens ↔
      ∃ front rest, c.Spells leaf front ∧ d.Spells leaf rest ∧
        tokens = front ++ Connective.or.tokens ++ rest := by
  constructor
  · intro h
    obtain _ | ⟨hc, hd⟩ := h
    exact ⟨_, _, hc, hd, rfl⟩
  · intro h
    obtain ⟨front, rest, hc, hd, rfl⟩ := h
    exact .or hc hd

theorem Conjunction.spells_and_iff {o : Operand α} {c : Conjunction α} :
    (Conjunction.and o c).Spells leaf tokens ↔
      ∃ front rest, o.Spells leaf front ∧ c.Spells leaf rest ∧
        tokens = front ++ Connective.and.tokens ++ rest := by
  constructor
  · intro h
    obtain _ | ⟨ho, hc⟩ := h
    exact ⟨_, _, ho, hc, rfl⟩
  · intro h
    obtain ⟨front, rest, ho, hc, rfl⟩ := h
    exact .and ho hc

/-- The tokens of an operand that is put in front of the first conjunction. -/
theorem Disjunction.spells_andFirst_iff {o : Operand α} {d : Disjunction α} :
    (d.andFirst o).Spells leaf tokens ↔
      ∃ front rest, o.Spells leaf front ∧ d.Spells leaf rest ∧
        tokens = front ++ Connective.and.tokens ++ rest := by
  cases d with
  | one c => simp only [andFirst, spells_one_iff, Conjunction.spells_and_iff]
  | or c d =>
    simp only [andFirst, spells_or_iff, Conjunction.spells_and_iff]
    constructor
    · intro h
      obtain ⟨_, rest, ⟨front, middle, ho, hc, rfl⟩, hd, rfl⟩ := h
      exact ⟨front, _, ho, ⟨middle, rest, hc, hd, rfl⟩, by simp⟩
    · intro h
      obtain ⟨front, _, ho, ⟨middle, rest, hc, hd, rfl⟩, rfl⟩ := h
      exact ⟨_, rest, ⟨front, middle, ho, hc, rfl⟩, hd, by simp⟩

/-- **A row and its disjunction have the same tokens.** -/
theorem Disjunction.spells_ofSequence_iff {first : Operand α}
    {rest : List (Connective × Operand α)} :
    (Disjunction.ofSequence first rest).Spells leaf tokens ↔
      ∃ front behind, first.Spells leaf front ∧
        Continues (Operand.Spells leaf) behind rest ∧ tokens = front ++ behind := by
  induction rest generalizing first tokens with
  | nil => simp [ofSequence, spells_one_iff, Conjunction.spells_one_iff, continues_nil_iff]
  | cons pair rest ih =>
    obtain ⟨connective, second⟩ := pair
    have hstep : (∃ front behind, first.Spells leaf front ∧
          (ofSequence second rest).Spells leaf behind ∧
          tokens = front ++ connective.tokens ++ behind) ↔
        ∃ front behind, first.Spells leaf front ∧
          Continues (Operand.Spells leaf) behind ((connective, second) :: rest) ∧
          tokens = front ++ behind := by
      simp only [ih, continues_cons_iff]
      constructor
      · intro h
        obtain ⟨front, _, hfirst, ⟨middle, behind, hsecond, hrest, rfl⟩, rfl⟩ := h
        exact ⟨front, _, hfirst, ⟨middle, behind, hsecond, hrest, rfl⟩, by simp⟩
      · intro h
        obtain ⟨front, _, hfirst, ⟨middle, behind, hsecond, hrest, rfl⟩, rfl⟩ := h
        exact ⟨front, _, hfirst, ⟨middle, behind, hsecond, hrest, rfl⟩, by simp⟩
    cases connective with
    | and => rw [ofSequence, spells_andFirst_iff, hstep]
    | or => simpa only [ofSequence, spells_or_iff, Conjunction.spells_one_iff] using hstep

/-- The nesting of a row is that of its deepest operand. -/
theorem Disjunction.nesting_ofSequence_le_iff {first : Operand α}
    {rest : List (Connective × Operand α)} :
    (Disjunction.ofSequence first rest).nesting size ≤ n ↔
      first.nesting size ≤ n ∧ ∀ pair ∈ rest, pair.2.nesting size ≤ n := by
  have handFirst (o : Operand α) (d : Disjunction α) :
      (d.andFirst o).nesting size ≤ n ↔ o.nesting size ≤ n ∧ d.nesting size ≤ n := by
    cases d <;> simp only [andFirst, nesting, Conjunction.nesting, Nat.max_le, and_assoc]
  induction rest generalizing first with
  | nil => simp [ofSequence, nesting, Conjunction.nesting]
  | cons pair rest ih =>
    obtain ⟨connective, second⟩ := pair
    cases connective with
    | and => simp [ofSequence, handFirst, ih]
    | or =>
      simp only [ofSequence, nesting, Conjunction.nesting, Nat.max_le, ih, List.forall_mem_cons]

theorem Conjunction.exists_ofSequence :
    ∀ c : Conjunction α, ∃ first rest, Disjunction.one c = .ofSequence first rest
  | .one o => ⟨o, [], rfl⟩
  | .and o c => by
      obtain ⟨first, rest, h⟩ := Conjunction.exists_ofSequence c
      exact ⟨o, (.and, first) :: rest, by rw [Disjunction.ofSequence, ← h, Disjunction.andFirst]⟩

theorem Conjunction.exists_ofSequence_or (first : Operand α)
    (rest : List (Connective × Operand α)) : ∀ c : Conjunction α, ∃ first' rest',
      Disjunction.or c (.ofSequence first rest) = .ofSequence first' rest'
  | .one o => ⟨o, (.or, first) :: rest, rfl⟩
  | .and o c => by
      obtain ⟨first', rest', h⟩ := Conjunction.exists_ofSequence_or first rest c
      exact ⟨o, (.and, first') :: rest', by rw [Disjunction.ofSequence, ← h, Disjunction.andFirst]⟩

/-- **Every disjunction is that of a row.** -/
theorem Disjunction.exists_ofSequence :
    ∀ d : Disjunction α, ∃ first rest, d = ofSequence first rest
  | .one c => c.exists_ofSequence
  | .or c d => by
      obtain ⟨first, rest, rfl⟩ := Disjunction.exists_ofSequence d
      exact c.exists_ofSequence_or first rest

end Rows

/-! ## 5. Properties of rows -/

/-- The property holds of the rows of conditions, and is kept where rows are
joined and where a row is put in parentheses. -/
structure RowProperty {α : Type} (leaf : List Token → α → Prop) (p : List Token → Prop) :
    Prop where
  leaf : ∀ {tokens a}, leaf tokens a → p tokens
  join : ∀ {front rest} (connective : Connective), p front → p rest →
    p (front ++ connective.tokens ++ rest)
  group : ∀ {negated opening inner}, Opens negated opening → p inner →
    p (opening ++ inner ++ [.closeParen])

section Properties

variable {α : Type} {leaf : List Token → α → Prop} {p : List Token → Prop}

mutual

/-- Such a property holds of every row of a disjunction. -/
theorem Disjunction.Spells.row (hp : RowProperty leaf p) {tokens : List Token} :
    ∀ {d : Disjunction α}, d.Spells leaf tokens → p tokens
  | .one c, h => by
      cases h with
      | one hc => exact Conjunction.Spells.row hp hc
  | .or c d, h => by
      cases h with
      | or hc hd => exact hp.join .or (Conjunction.Spells.row hp hc) (Disjunction.Spells.row hp hd)

theorem Conjunction.Spells.row (hp : RowProperty leaf p) {tokens : List Token} :
    ∀ {c : Conjunction α}, c.Spells leaf tokens → p tokens
  | .one o, h => by
      cases h with
      | one ho => exact Operand.Spells.row hp ho
  | .and o c, h => by
      cases h with
      | and ho hc => exact hp.join .and (Operand.Spells.row hp ho) (Conjunction.Spells.row hp hc)

theorem Operand.Spells.row (hp : RowProperty leaf p) {tokens : List Token} :
    ∀ {o : Operand α}, o.Spells leaf tokens → p tokens
  | .leaf a, h => by
      cases h with
      | leaf ha => exact hp.leaf ha
  | .group negated d, h => by
      cases h with
      | group hopens hd => exact hp.group hopens (Disjunction.Spells.row hp hd)

end

end Properties

end ScimQuery
