/-
ScimQuery.Filter.Combination — conditions joined by `and`, `or` and `not`.

`and` binds tighter than `or`, and that is in the shape of the types: a
disjunction is a row of conjunctions, a conjunction is a row of operands, and
an operand is a condition or a group in parentheses, negated or not. No row
is empty. The types do not say what a condition is, so the filters of a
query and the filters inside brackets are both made of them.

A text gives the operands in one row, with a connective between any two of
them. `Disjunction.ofSequence` applies the precedence to such a row: `and`
continues the conjunction at hand, and `or` opens the next one.
-/
import ScimQuery.Keyword

namespace ScimQuery

mutual

/-- Conjunctions joined by `or`. -/
inductive Disjunction (α : Type) where
  | one (conjunction : Conjunction α)
  | or (conjunction : Conjunction α) (rest : Disjunction α)
  deriving DecidableEq, Repr

/-- Operands joined by `and`. -/
inductive Conjunction (α : Type) where
  | one (operand : Operand α)
  | and (operand : Operand α) (rest : Conjunction α)
  deriving DecidableEq, Repr

/-- A condition, or a group in parentheses with or without `not`. -/
inductive Operand (α : Type) where
  | leaf (condition : α)
  | group (negated : Bool) (inner : Disjunction α)
  deriving DecidableEq, Repr

end

/-! ## Rows as lists -/

/-- The operands of a conjunction in their order. -/
def Conjunction.toList {α : Type} : Conjunction α → List (Operand α)
  | .one operand => [operand]
  | .and operand rest => operand :: rest.toList

/-- The conjunctions of a disjunction in their order. -/
def Disjunction.toList {α : Type} : Disjunction α → List (Conjunction α)
  | .one conjunction => [conjunction]
  | .or conjunction rest => conjunction :: rest.toList

/-- The conjunction of an operand and those behind it. -/
def Conjunction.ofList {α : Type} (first : Operand α) : List (Operand α) → Conjunction α
  | [] => .one first
  | second :: rest => .and first (ofList second rest)

/-- The disjunction of a conjunction and those behind it. -/
def Disjunction.ofList {α : Type} (first : Conjunction α) :
    List (Conjunction α) → Disjunction α
  | [] => .one first
  | second :: rest => .or first (ofList second rest)

/-! ## Precedence -/

/-- Puts an operand in front of the first conjunction of a disjunction. -/
def Disjunction.andFirst {α : Type} (operand : Operand α) : Disjunction α → Disjunction α
  | .one conjunction => .one (.and operand conjunction)
  | .or conjunction rest => .or (.and operand conjunction) rest

/-- The disjunction that a row of operands stands for: the first operand, and
every further one with the connective in front of it. -/
def Disjunction.ofSequence {α : Type} (first : Operand α) :
    List (Connective × Operand α) → Disjunction α
  | [] => .one (.one first)
  | (.and, second) :: rest => (ofSequence second rest).andFirst first
  | (.or, second) :: rest => .or (.one first) (ofSequence second rest)

/-! ## Text -/

/-- A connective with the spaces around it. -/
def Connective.text (connective : Connective) : String :=
  " " ++ connective.word ++ " "

mutual

/-- The text of a disjunction, given the text of a condition. -/
def Disjunction.text {α : Type} (leaf : α → String) : Disjunction α → String
  | .one conjunction => conjunction.text leaf
  | .or conjunction rest => conjunction.text leaf ++ Connective.or.text ++ rest.text leaf

/-- The text of a conjunction, given the text of a condition. -/
def Conjunction.text {α : Type} (leaf : α → String) : Conjunction α → String
  | .one operand => operand.text leaf
  | .and operand rest => operand.text leaf ++ Connective.and.text ++ rest.text leaf

/-- The text of an operand, given the text of a condition. A negated group
has one space behind `not`. -/
def Operand.text {α : Type} (leaf : α → String) : Operand α → String
  | .leaf condition => leaf condition
  | .group negated inner =>
    (if negated then Keyword.negation.word ++ " " else "") ++ "(" ++ inner.text leaf ++ ")"

end

end ScimQuery
