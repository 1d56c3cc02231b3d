/-
ScimQuery.Literal — the right-hand side of a comparison.

A literal is a constant, a number or a quoted string. Numbers and strings
are kept as they are written: `1.10` stays `1.10`, and no escape sequence of
a string is resolved, so a query can be written back as it was read. What a
number amounts to and which characters a string stands for is worked out on
demand, in `ScimQuery.Literal.Decimal` and `ScimQuery.Literal.Decoding`.

The constructors take any text. `Literal.ofText` is the checked way from a
text to a literal.
-/
import ScimQuery.Token.Reader

namespace ScimQuery

/-- A constant, or the text of a number or of a quoted string. -/
inductive Literal where
  | constant (value : Constant)
  | number (text : String)
  | string (text : String)
  deriving DecidableEq, Repr

namespace Literal

/-- The text that a literal is written with. -/
def text : Literal → String
  | .constant value => value.word
  | .number text => text
  | .string text => text

/-- The truth value that a literal stands for, if it is `true` or `false`. -/
def bool? : Literal → Option Bool
  | .constant .true => some true
  | .constant .false => some false
  | _ => none

/-- The literal that a token is. -/
def ofToken? : Token → Option Literal
  | .keyword (.constant value) => some (.constant value)
  | .number text => some (.number text)
  | .string text => some (.string text)
  | _ => none

/-- The literal that a whole text is. Nothing may stand around it. -/
def ofText (text : String) : Except LexicalError Literal :=
  match Token.ofText text with
  | .error error => .error error
  | .ok (first :: second :: _) =>
    match ofToken? first.token with
    | none => .error ⟨.literalMissing, 0⟩
    | some literal =>
      if second.token = .eof then .ok literal
      else .error ⟨.textBehindLiteral, second.offset⟩
  | .ok _ => .error ⟨.literalMissing, 0⟩

end Literal

end ScimQuery
