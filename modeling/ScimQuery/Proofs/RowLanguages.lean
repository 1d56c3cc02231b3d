/-
ScimQuery.Proofs.RowLanguages — the grammar over tokens as equations between
languages.

The grammar of Proofs.Spelling says which rows of tokens spell a given tree.
Where a parser stands in the middle of a text there is no tree yet, and all
that counts is which rows may still come. These are languages over tokens, and
the trees disappear from them: a test behind its path has the same rows
whatever the path was, and what may come behind an operand does not depend on
the operand.

So every phrase of the grammar gets the language of its rows, as a product and
sum of languages of single tokens. `spelled` is the language of all rows that
spell something, and the equations tie the two together: an operand is a
condition or a group (`spelled_operand`), and a combination is an operand and
a repetition of connectives and operands (`spelled_combination`,
`spelled_continues`). What may come next can be read off a product whose first
factor is a language of single tokens (`cons_mem_ofKind_mul`).
-/
import Mathlib.Computability.Language
import ScimQuery.Proofs.Spelling

namespace ScimQuery

open Language

variable {α : Type} {token : Token} {row rest : List Token} {kind : Token → Prop}
  {L later : Language Token}

/-! ## 1. Languages of rows -/

/-- The rows that spell something. -/
def spelled (grammar : List Token → α → Prop) : Language Token :=
  {row | ∃ a, grammar row a}

/-- The rows of one token of a kind. -/
def ofKind (kind : Token → Prop) : Language Token :=
  {row | ∃ token, kind token ∧ row = [token]}

/-- The row of one given token. -/
def ofToken (token : Token) : Language Token :=
  ofKind (· = token)

theorem mem_spelled {grammar : List Token → α → Prop} :
    row ∈ spelled grammar ↔ ∃ a, grammar row a :=
  Iff.rfl

theorem mem_ofKind : row ∈ ofKind kind ↔ ∃ token, kind token ∧ row = [token] :=
  Iff.rfl

theorem mem_ofToken : row ∈ ofToken token ↔ row = [token] := by
  rw [ofToken, mem_ofKind, exists_eq_left]

/-- A token of the kind goes first. -/
theorem mem_ofKind_mul :
    row ∈ ofKind kind * L ↔ ∃ token rest, kind token ∧ rest ∈ L ∧ row = token :: rest := by
  rw [mem_mul]
  constructor
  · rintro ⟨_, ⟨token, htoken, rfl⟩, rest, hrest, rfl⟩
    exact ⟨token, rest, htoken, hrest, rfl⟩
  · rintro ⟨token, rest, htoken, hrest, rfl⟩
    exact ⟨_, ⟨token, htoken, rfl⟩, rest, hrest, rfl⟩

@[simp] theorem cons_mem_ofKind_mul :
    token :: rest ∈ ofKind kind * L ↔ kind token ∧ rest ∈ L := by
  rw [mem_ofKind_mul]
  constructor
  · rintro ⟨_, _, htoken, hrest, ⟨⟩⟩
    exact ⟨htoken, hrest⟩
  · rintro ⟨htoken, hrest⟩
    exact ⟨token, rest, htoken, hrest, rfl⟩

@[simp] theorem cons_mem_ofToken_mul {first : Token} :
    token :: rest ∈ ofToken first * L ↔ token = first ∧ rest ∈ L :=
  cons_mem_ofKind_mul

/-- The token goes first. -/
theorem mem_ofToken_mul : row ∈ ofToken token * L ↔ ∃ rest ∈ L, row = token :: rest := by
  rw [ofToken, mem_ofKind_mul]
  simp

theorem exists_mem_ofKind_mul (htoken : kind token) (h : ∃ rest, rest ∈ L) :
    ∃ row, row ∈ ofKind kind * L := by
  obtain ⟨rest, hrest⟩ := h
  exact ⟨token :: rest, cons_mem_ofKind_mul.mpr ⟨htoken, hrest⟩⟩

theorem exists_mem_ofToken_mul (token : Token) (h : ∃ rest, rest ∈ L) :
    ∃ row, row ∈ ofToken token * L := by
  obtain ⟨rest, hrest⟩ := h
  exact ⟨token :: rest, cons_mem_ofToken_mul.mpr ⟨rfl, hrest⟩⟩

theorem exists_mem_mul (h : ∃ row, row ∈ L) (hlater : ∃ rest, rest ∈ later) :
    ∃ row, row ∈ L * later := by
  obtain ⟨row, hrow⟩ := h
  obtain ⟨rest, hrest⟩ := hlater
  exact ⟨row ++ rest, append_mem_mul hrow hrest⟩

/-! ## 2. Phrases with one spelling -/

namespace Token

def IsUrn : Token → Prop
  | .urn _ => True
  | _ => False

def IsName : Token → Prop
  | .attribute _ => True
  | _ => False

def IsComparison : Token → Prop
  | .keyword (.comparison _) => True
  | _ => False

def IsConnective : Token → Prop
  | .keyword (.connective _) => True
  | _ => False

def IsLiteral (token : Token) : Prop :=
  ∃ l : Literal, token = l.token

end Token

open Token

/-- A schema with its colon, or nothing. -/
def schemaRows : Language Token :=
  ofKind IsUrn * ofToken .colon + 1

/-- A sub-attribute with its dot, or nothing. -/
def subRows : Language Token :=
  ofToken .dot * ofKind IsName + 1

/-- An attribute path. -/
def pathRows : Language Token :=
  schemaRows * (ofKind IsName * subRows)

/-- What makes a test of an attribute path. -/
def tailRows : Language Token :=
  ofToken .space * (ofToken (.keyword .present) +
    ofKind IsComparison * (ofToken .space * ofKind IsLiteral))

/-- What may stand in front of the parenthesis of a group. -/
def negationRows : Language Token :=
  ofToken (.keyword .negation) * (ofToken .space + 1) + 1

/-- A group, given what may be in it. -/
def groupRows (inner : Language Token) : Language Token :=
  negationRows * (ofToken .openParen * (inner * ofToken .closeParen))

/-- Brackets, given what may be in them. -/
def bracketRows (inner : Language Token) : Language Token :=
  ofToken .openBracket * (inner * ofToken .closeBracket)

/-- A connective and an operand behind it. -/
def joinRows (operand : Language Token) : Language Token :=
  ofToken .space * (ofKind IsConnective * (ofToken .space * operand))

theorem mem_schemaRows : row ∈ schemaRows ↔ ∃ schema, row = schemaTokens schema := by
  simp only [schemaRows, mem_add, mem_ofKind_mul, mem_ofToken, mem_one]
  constructor
  · rintro (⟨token, _, hurn, rfl, rfl⟩ | rfl)
    · cases token with
      | urn urn => exact ⟨some urn, rfl⟩
      | _ => exact hurn.elim
    · exact ⟨none, rfl⟩
  · rintro ⟨_ | urn, rfl⟩
    · exact .inr rfl
    · exact .inl ⟨.urn urn, _, trivial, rfl, rfl⟩

theorem mem_subRows : row ∈ subRows ↔ ∃ sub, row = subTokens sub := by
  simp only [subRows, mem_add, mem_ofToken_mul, mem_ofKind, mem_one]
  constructor
  · rintro (⟨_, ⟨token, hname, rfl⟩, rfl⟩ | rfl)
    · cases token with
      | «attribute» name => exact ⟨some name, rfl⟩
      | _ => exact hname.elim
    · exact ⟨none, rfl⟩
  · rintro ⟨_ | name, rfl⟩
    · exact .inr rfl
    · exact .inl ⟨_, ⟨.attribute name, trivial, rfl⟩, rfl⟩

theorem mem_pathRows : row ∈ pathRows ↔ ∃ path : AttributePath, row = path.tokens := by
  simp only [pathRows, mem_mul, mem_schemaRows, mem_subRows, mem_ofKind]
  constructor
  · rintro ⟨_, ⟨schema, rfl⟩, _, ⟨_, ⟨token, hname, rfl⟩, _, ⟨sub, rfl⟩, rfl⟩, rfl⟩
    cases token with
    | «attribute» name => exact ⟨⟨schema, name, sub⟩, rfl⟩
    | _ => exact hname.elim
  · rintro ⟨⟨schema, name, sub⟩, rfl⟩
    exact ⟨_, ⟨schema, rfl⟩, _, ⟨_, ⟨.attribute name, trivial, rfl⟩, _, ⟨sub, rfl⟩, rfl⟩, rfl⟩

/-- The rows behind a path are the same for every path. -/
theorem mem_tailRows (path : AttributePath) :
    row ∈ tailRows ↔ ∃ test : AttributeTest, test.path = path ∧ row = test.tail := by
  simp only [tailRows, mem_ofToken_mul, mem_add, mem_ofToken, mem_ofKind_mul, mem_ofKind]
  constructor
  · rintro ⟨_, rfl | ⟨token, _, hcomparison, ⟨_, ⟨_, ⟨l, rfl⟩, rfl⟩, rfl⟩, rfl⟩, rfl⟩
    · exact ⟨.present path, rfl, rfl⟩
    · cases token with
      | keyword keyword =>
        cases keyword with
        | comparison operator => exact ⟨.compare path operator l, rfl, rfl⟩
        | _ => exact hcomparison.elim
      | _ => exact hcomparison.elim
  · rintro ⟨path | ⟨path, operator, l⟩, -, rfl⟩
    · exact ⟨_, .inl rfl, rfl⟩
    · exact ⟨_, .inr ⟨.keyword (.comparison operator), _, trivial,
        ⟨_, ⟨_, ⟨l, rfl⟩, rfl⟩, rfl⟩, rfl⟩, rfl⟩

theorem mem_negationRows :
    row ∈ negationRows ↔ ∃ negated, Opens negated (row ++ [.openParen]) := by
  simp only [negationRows, mem_add, mem_ofToken_mul, mem_ofToken, mem_one, opens_append_iff]
  constructor
  · rintro (⟨_, rfl | rfl, rfl⟩ | rfl)
    · exact ⟨true, .inr (.inr ⟨rfl, rfl⟩)⟩
    · exact ⟨true, .inr (.inl ⟨rfl, rfl⟩)⟩
    · exact ⟨false, .inl ⟨rfl, rfl⟩⟩
  · rintro ⟨negated, ⟨-, rfl⟩ | ⟨-, rfl⟩ | ⟨-, rfl⟩⟩
    · exact .inr rfl
    · exact .inl ⟨_, .inr rfl, rfl⟩
    · exact .inl ⟨_, .inl rfl, rfl⟩

/-! ## 3. Conditions -/

theorem spelled_test : spelled AttributeTest.Spells = pathRows * tailRows := by
  ext row
  simp only [mem_spelled, mem_mul, mem_pathRows]
  constructor
  · rintro ⟨test, rfl⟩
    exact ⟨_, ⟨test.path, rfl⟩, _, (mem_tailRows test.path).mpr ⟨test, rfl, rfl⟩, rfl⟩
  · rintro ⟨_, ⟨path, rfl⟩, tail, htail, rfl⟩
    obtain ⟨test, rfl, rfl⟩ := (mem_tailRows path).mp htail
    exact ⟨test, rfl⟩

theorem mem_bracketRows {inner : Language Token} :
    row ∈ bracketRows inner ↔
      ∃ front ∈ inner, row = .openBracket :: (front ++ [.closeBracket]) := by
  rw [bracketRows, mem_ofToken_mul]
  simp only [mem_mul, mem_ofToken]
  constructor
  · rintro ⟨_, ⟨front, hfront, _, rfl, rfl⟩, rfl⟩
    exact ⟨front, hfront, rfl⟩
  · rintro ⟨front, hfront, rfl⟩
    exact ⟨_, ⟨front, hfront, _, rfl, rfl⟩, rfl⟩

/-- A condition is a path, and a test or brackets behind it. -/
theorem spelled_condition :
    spelled Condition.Spells =
      pathRows * (tailRows + bracketRows (spelled ValueFilter.Spells)) := by
  rw [mul_add, ← spelled_test]
  ext row
  simp only [mem_spelled, mem_add, mem_mul, mem_pathRows, mem_bracketRows]
  constructor
  · rintro ⟨test | v, h⟩
    · exact .inl ⟨test, h⟩
    · obtain ⟨inner, hinner, rfl⟩ := h
      exact .inr ⟨_, ⟨v.path, rfl⟩, _, ⟨inner, ⟨v.filter, hinner⟩, rfl⟩, rfl⟩
  · rintro (⟨test, h⟩ | ⟨_, ⟨path, rfl⟩, _, ⟨inner, ⟨filter, hinner⟩, rfl⟩, rfl⟩)
    · exact ⟨.test test, h⟩
    · exact ⟨.values ⟨path, filter⟩, inner, hinner, rfl⟩

/-! ## 4. Combinations -/

theorem mem_groupRows {inner : Language Token} :
    row ∈ groupRows inner ↔ ∃ negated opening, Opens negated opening ∧
      ∃ front ∈ inner, row = opening ++ front ++ [.closeParen] := by
  simp only [groupRows, mem_mul, mem_negationRows, mem_ofToken]
  constructor
  · rintro ⟨front, ⟨negated, hopens⟩, _, ⟨_, rfl, _, ⟨inner, hinner, _, rfl, rfl⟩, rfl⟩, rfl⟩
    exact ⟨negated, _, hopens, inner, hinner, by simp⟩
  · rintro ⟨negated, opening, hopens, inner, hinner, rfl⟩
    obtain ⟨front, rfl⟩ := hopens.exists_append
    exact ⟨front, ⟨negated, hopens⟩, _, ⟨_, rfl, _, ⟨inner, hinner, _, rfl, rfl⟩, rfl⟩, by simp⟩

theorem mem_joinRows {operand : Language Token} :
    row ∈ joinRows operand ↔ ∃ (connective : Connective), ∃ front ∈ operand,
      row = connective.tokens ++ front := by
  simp only [joinRows, mem_ofToken_mul, mem_ofKind_mul]
  constructor
  · rintro ⟨_, ⟨token, _, hconnective, ⟨front, hfront, rfl⟩, rfl⟩, rfl⟩
    cases token with
    | keyword keyword =>
      cases keyword with
      | connective connective => exact ⟨connective, front, hfront, rfl⟩
      | _ => exact hconnective.elim
    | _ => exact hconnective.elim
  · rintro ⟨connective, front, hfront, rfl⟩
    exact ⟨_, ⟨.keyword (.connective connective), _, trivial, ⟨front, hfront, rfl⟩, rfl⟩, rfl⟩

variable {leaf : List Token → α → Prop}

/-- An operand is a condition or a group. -/
theorem spelled_operand :
    spelled (Operand.Spells leaf) =
      spelled leaf + groupRows (spelled (Disjunction.Spells leaf)) := by
  ext row
  simp only [mem_spelled, mem_add, mem_groupRows]
  constructor
  · rintro ⟨o, h⟩
    cases h with
    | leaf ha => exact .inl ⟨_, ha⟩
    | group hopens hd => exact .inr ⟨_, _, hopens, _, ⟨_, hd⟩, rfl⟩
  · rintro (⟨a, ha⟩ | ⟨negated, opening, hopens, inner, ⟨d, hd⟩, rfl⟩)
    · exact ⟨.leaf a, .leaf ha⟩
    · exact ⟨.group negated d, .group hopens hd⟩

/-- A row goes on with a connective and an operand, or it ends. -/
theorem spelled_continues {operand : List Token → Operand α → Prop} :
    spelled (Continues operand) =
      joinRows (spelled operand) * spelled (Continues operand) + 1 := by
  ext row
  simp only [mem_spelled, mem_add, mem_mul, mem_joinRows, mem_one]
  constructor
  · rintro ⟨rest, h⟩
    cases h with
    | nil => exact .inr rfl
    | cons ho hrest => exact .inl ⟨_, ⟨_, _, ⟨_, ho⟩, rfl⟩, _, ⟨_, hrest⟩, rfl⟩
  · rintro (⟨_, ⟨connective, front, ⟨o, ho⟩, rfl⟩, behind, ⟨rest, hrest⟩, rfl⟩ | rfl)
    · exact ⟨(connective, o) :: rest, .cons ho hrest⟩
    · exact ⟨[], .nil⟩

/-- **A combination is an operand and what goes on behind it.** -/
theorem spelled_combination :
    spelled (Disjunction.Spells leaf) =
      spelled (Operand.Spells leaf) * spelled (Continues (Operand.Spells leaf)) := by
  ext row
  simp only [mem_spelled, mem_mul]
  constructor
  · rintro ⟨d, h⟩
    obtain ⟨first, rest, rfl⟩ := d.exists_ofSequence
    obtain ⟨front, behind, hfirst, hrest, rfl⟩ := Disjunction.spells_ofSequence_iff.mp h
    exact ⟨front, ⟨first, hfirst⟩, behind, ⟨rest, hrest⟩, rfl⟩
  · rintro ⟨front, ⟨first, hfirst⟩, behind, ⟨rest, hrest⟩, rfl⟩
    exact ⟨.ofSequence first rest,
      Disjunction.spells_ofSequence_iff.mpr ⟨front, behind, hfirst, hrest, rfl⟩⟩

/-- There are combinations if there are conditions. -/
theorem exists_mem_spelled_combination (h : ∃ row, row ∈ spelled leaf) :
    ∃ row, row ∈ spelled (Disjunction.Spells leaf) := by
  obtain ⟨row, a, ha⟩ := h
  exact ⟨row, .one (.one (.leaf a)), .one (.one (.leaf ha))⟩

end ScimQuery
