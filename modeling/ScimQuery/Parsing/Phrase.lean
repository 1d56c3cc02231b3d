/-
ScimQuery.Parsing.Phrase — the phrases without choice.

These parsers look at the current token at most to decide: names, attribute
paths, operators, literals, the test behind an attribute path, and the marks
around groups and brackets. Both strategies are built from them.
-/
import ScimQuery.Filter
import ScimQuery.Parsing.TokenStream

namespace ScimQuery.Parse

/-! ## Attribute paths -/

/-- The name of an attribute or of a sub-attribute. -/
def attributeName : Parse String := do
  match ← current with
  | .attribute name =>
    skip
    return name
  | _ => mismatch .attributeName

/-- A dot and a sub-attribute, if there is a dot. -/
def subAttribute : Parse (Option String) := do
  if ← accept .dot then
    return some (← attributeName)
  else
    return none

/-- The schema and the colon in front of an attribute name, if there are any. -/
def schema : Parse (Option String) := do
  match ← current with
  | .urn urn =>
    skip
    require .colon
    return some urn
  | .attribute _ => return none
  | _ => mismatch .attributePath

/-- An attribute path. -/
def attributePath : Parse AttributePath := do
  let schema ← schema
  let name ← attributeName
  let sub ← subAttribute
  return ⟨schema, name, sub⟩

/-! ## Attribute tests -/

/-- A comparison operator. -/
def comparison : Parse Comparison := do
  match ← current with
  | .keyword (.comparison operator) =>
    skip
    return operator
  | _ => mismatch .comparison

/-- A literal. -/
def literal : Parse Literal := do
  match Literal.ofToken? (← current) with
  | some literal =>
    skip
    return literal
  | none => mismatch .literal

/-- The test of the attribute `path`, from the space behind the path on. -/
def testOf (path : AttributePath) : Parse AttributeTest := do
  require .space
  if ← accept (.keyword .present) then
    return .present path
  else
    let operator ← comparison
    require .space
    let literal ← literal
    return .compare path operator literal

/-- An attribute test. -/
def attributeTest : Parse AttributeTest := do
  let path ← attributePath
  testOf path

/-! ## Operands -/

/-- A connective. -/
def connective : Parse Connective := do
  match ← current with
  | .keyword (.connective operator) =>
    skip
    return operator
  | _ => mismatch .connective

/-- What stands in front of a group: `not` with or without a space behind it,
or nothing. Tells whether it was there, and stops on the parenthesis. -/
def negation : Parse Bool := do
  let negated ← accept (.keyword .negation)
  if negated then
    let _ ← accept .space
  ensure .openParen
  return negated

/-- A group. `contents` starts on its opening parenthesis. -/
def group {α : Type} (contents : Parse (Disjunction α)) : Parse (Operand α) := do
  let negated ← negation
  let inner ← contents
  ascend .closeParen
  return .group negated inner

/-- The filtered values of the attribute `path`, from the bracket behind the
path on. `contents` starts on the bracket. -/
def valuesOf (contents : Parse ValueFilter) (path : AttributePath) : Parse ValuePath := do
  ensure .openBracket
  let filter ← contents
  ascend .closeBracket
  return ⟨path, filter⟩

/-- The filtered values of an attribute. -/
def valuePath (contents : Parse ValueFilter) : Parse ValuePath := do
  let path ← attributePath
  valuesOf contents path

/-- An operand and the operands that `step` finds behind it, each with the
connective in front of it. -/
def sequence {α : Type} (operand : Parse (Operand α))
    (step : Parse (Option (Connective × Operand α))) : Parse (Disjunction α) := do
  let first ← operand
  let rest ← repeated step
  return Disjunction.ofSequence first rest

end ScimQuery.Parse
