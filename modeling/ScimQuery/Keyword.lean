/-
ScimQuery.Keyword — the sixteen reserved words.

A keyword is a comparison, the presence test, one of the two connectives,
the negation, or a constant. The type says which, so a parser that stands on
a keyword has the operator or the constant at hand and needs no second
table. Words are reserved exactly as they are spelled: `eq` is a keyword and
`EQ` is an attribute name.
-/
namespace ScimQuery

/-- The comparisons of an attribute with a literal. -/
inductive Comparison where
  | equal
  | notEqual
  | contains
  | startsWith
  | endsWith
  | greaterThan
  | greaterEqual
  | lessThan
  | lessEqual
  deriving DecidableEq, Repr

/-- The word that a comparison is written with. -/
def Comparison.word : Comparison → String
  | .equal => "eq"
  | .notEqual => "ne"
  | .contains => "co"
  | .startsWith => "sw"
  | .endsWith => "ew"
  | .greaterThan => "gt"
  | .greaterEqual => "ge"
  | .lessThan => "lt"
  | .lessEqual => "le"

/-- What joins two operands. `and` binds tighter than `or`. -/
inductive Connective where
  | and
  | or
  deriving DecidableEq, Repr

/-- The word that a connective is written with. -/
def Connective.word : Connective → String
  | .and => "and"
  | .or => "or"

/-- The literals that are words. -/
inductive Constant where
  | true
  | false
  | null
  deriving DecidableEq, Repr

/-- The word that a constant is written with. -/
def Constant.word : Constant → String
  | .true => "true"
  | .false => "false"
  | .null => "null"

/-- A reserved word. -/
inductive Keyword where
  | comparison (operator : Comparison)
  | present
  | connective (operator : Connective)
  | negation
  | constant (value : Constant)
  deriving DecidableEq, Repr

namespace Keyword

/-- The spelling of a keyword. -/
def word : Keyword → String
  | .comparison operator => operator.word
  | .present => "pr"
  | .connective operator => operator.word
  | .negation => "not"
  | .constant value => value.word

/-- All keywords in the order of the language's word list. -/
def all : List Keyword :=
  [.comparison .equal, .comparison .notEqual, .comparison .contains,
   .comparison .startsWith, .comparison .endsWith, .present,
   .comparison .greaterThan, .comparison .greaterEqual,
   .comparison .lessThan, .comparison .lessEqual,
   .connective .and, .connective .or, .negation,
   .constant .true, .constant .false, .constant .null]

/-- The keyword that a text spells, if it spells one. -/
def ofWord? (text : String) : Option Keyword :=
  all.find? (·.word == text)

/-- No keyword is missing from the list. -/
theorem mem_all (k : Keyword) : k ∈ all := by
  cases k with
  | comparison operator => cases operator <;> decide
  | present => decide
  | connective operator => cases operator <;> decide
  | negation => decide
  | constant value => cases value <;> decide

/-- Every keyword is found by its own spelling. -/
theorem ofWord?_word (k : Keyword) : ofWord? k.word = some k := by
  cases k with
  | comparison operator => cases operator <;> decide
  | present => decide
  | connective operator => cases operator <;> decide
  | negation => decide
  | constant value => cases value <;> decide

/-- A text that spells a keyword is that keyword's word. -/
theorem word_of_ofWord? {text : String} {k : Keyword} (h : ofWord? text = some k) :
    k.word = text := by
  simpa using List.find?_some h

end Keyword

end ScimQuery
