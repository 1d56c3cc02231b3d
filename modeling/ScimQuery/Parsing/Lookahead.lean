/-
ScimQuery.Parsing.Lookahead — parsing that looks at the next token and
commits.

An operand that starts with a URN or a name is a condition, and one that
starts with `not` or a parenthesis is a group. Behind the attribute path of
a condition, a space leads to a test and a bracket to filtered values.
Behind an operand, a space leads to the next one. A parser that has taken a
token on this ground fails if what follows does not fit, so its errors point
at the first token that fits nowhere.

The three shapes of a path have an attribute path in common, which can be
told apart by no bounded number of tokens, so they are tried one by one up
to the end of the text.
-/
import ScimQuery.Parsing.Phrase

namespace ScimQuery.Lookahead

open Parse

/-- An operand. `leaf` is run on its first token if that starts a condition,
and `contents` on the parenthesis of a group. -/
def operand {α : Type} (leaf : Parse α) (contents : Parse (Disjunction α)) :
    Parse (Operand α) := do
  match ← current with
  | .urn _ | .attribute _ => return .leaf (← leaf)
  | .keyword .negation | .openParen => group contents
  | _ => mismatch .operand

/-- The connective and the operand behind a space, if there is a space. -/
def continuation {α : Type} (operand : Parse (Operand α)) :
    Parse (Option (Connective × Operand α)) := do
  if ← accept .space then
    let connective ← connective
    require .space
    let operand ← operand
    return some (connective, operand)
  else
    return none

/-- Operands with connectives between them. -/
def operands {α : Type} (operand : Parse (Operand α)) : Parse (Disjunction α) :=
  sequence operand (continuation operand)

/-- A combination of the conditions that `leaf` parses, where `levels` groups
and brackets may still be opened. -/
def combination {α : Type} (leaf : Nat → Parse α) : (levels : Nat) → Parse (Disjunction α)
  | 0 => operands (operand (leaf 0) tooDeep)
  | levels + 1 => operands <| operand (leaf (levels + 1)) do
    descend
    combination leaf levels

/-- A filter in brackets. -/
def valueFilter (levels : Nat) : Parse ValueFilter :=
  combination (fun _ => attributeTest) levels

/-- A condition: a test, or filtered values. -/
def condition (levels : Nat) : Parse Condition := do
  let path ← attributePath
  match ← current with
  | .space => return .test (← testOf path)
  | .openBracket => return .values (← valuesOf (nested valueFilter levels) path)
  | _ => mismatch .testOrBracket

/-- A filter. -/
def filter (levels : Nat) : Parse Filter :=
  combination condition levels

/-- A filter that nothing follows. -/
def wholeFilter (levels : Nat) : Parse Filter := do
  let filter ← filter levels
  require .eof
  return filter

/-- Filtered values, with a sub-attribute or without, that nothing follows. -/
def wholeValues (levels : Nat) : Parse Path := do
  let values ← valuePath (nested valueFilter levels)
  let sub ← subAttribute
  require .eof
  return .values values sub

/-- A test that nothing follows. -/
def wholeTest : Parse Path := do
  let test ← attributeTest
  require .eof
  return .test test

/-- An attribute path that nothing follows. -/
def wholeAttribute : Parse Path := do
  let path ← attributePath
  require .eof
  return .attribute path

/-- The shapes of a path, which are tried in this order. -/
def paths (levels : Nat) : List (Parse Path) :=
  [wholeValues levels, wholeTest, wholeAttribute]

/-- A path that nothing follows. -/
def wholePath (levels : Nat) : Parse Path := do
  match ← firstOf (paths levels) with
  | some path => return path
  | none => fun stream => .error (.noPath stream.offset) stream

end ScimQuery.Lookahead
