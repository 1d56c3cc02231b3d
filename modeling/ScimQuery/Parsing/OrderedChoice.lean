/-
ScimQuery.Parsing.OrderedChoice — parsing that tries one alternative after
the other.

An operand is a test if one can be parsed, else filtered values, else a
group, and whatever an alternative had taken before it failed is given back.
The operands of a combination go on as long as one more can be parsed: a
connective with a faulty operand behind it is given back as well, and is
found again by whoever looks for the end of the combination.
-/
import ScimQuery.Parsing.Phrase

namespace ScimQuery.OrderedChoice

open Parse

/-- An operand: the first of the alternatives that can be parsed, or else a
group, on whose parenthesis `contents` is run. -/
def operand {α : Type} (alternatives : List (Parse α)) (contents : Parse (Disjunction α)) :
    Parse (Operand α) := do
  match ← firstOf alternatives with
  | some condition => return .leaf condition
  | none => group contents

/-- A connective between spaces, and an operand. -/
def continuation {α : Type} (operand : Parse (Operand α)) : Parse (Connective × Operand α) := do
  require .space
  let connective ← connective
  require .space
  let operand ← operand
  return (connective, operand)

/-- Operands with connectives between them, as far as they can be parsed. -/
def operands {α : Type} (operand : Parse (Operand α)) : Parse (Disjunction α) :=
  sequence operand (orNone (continuation operand))

/-- A combination of the conditions that the alternatives parse, where
`levels` groups and brackets may still be opened. -/
def combination {α : Type} (alternatives : Nat → List (Parse α)) :
    (levels : Nat) → Parse (Disjunction α)
  | 0 => operands (operand (alternatives 0) tooDeep)
  | levels + 1 => operands <| operand (alternatives (levels + 1)) do
    descend
    combination alternatives levels

/-- A filter in brackets. -/
def valueFilter (levels : Nat) : Parse ValueFilter :=
  combination (fun _ => [attributeTest]) levels

/-- The filtered values of an attribute. -/
def values (levels : Nat) : Parse ValuePath :=
  valuePath (nested valueFilter levels)

/-- The alternatives for a condition: a test, then filtered values. -/
def conditions (levels : Nat) : List (Parse Condition) :=
  [.test <$> attributeTest, .values <$> values levels]

/-- A filter. -/
def filter (levels : Nat) : Parse Filter :=
  combination conditions levels

/-- A filter that nothing follows. -/
def wholeFilter (levels : Nat) : Parse Filter := do
  let filter ← filter levels
  require .eof
  return filter

/-- Filtered values, with a sub-attribute or without. -/
def valuesPath (levels : Nat) : Parse Path := do
  let values ← values levels
  let sub ← subAttribute
  return .values values sub

/-- The alternatives for a path, which are tried in this order. -/
def paths (levels : Nat) : List (Parse Path) :=
  [valuesPath levels, .test <$> attributeTest, .attribute <$> attributePath]

/-- A path that nothing follows. The first alternative that can be parsed is
the shape of the path, and the end of the text has to come behind it. -/
def wholePath (levels : Nat) : Parse Path := do
  match ← firstOf (paths levels) with
  | some path =>
    require .eof
    return path
  | none => fun stream => .error (.noPath stream.offset) stream

end ScimQuery.OrderedChoice
