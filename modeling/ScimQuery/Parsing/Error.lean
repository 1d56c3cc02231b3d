/-
ScimQuery.Parsing.Error — why a text is no filter and no path.

The text may not consist of tokens at all, a token may stand where another
one has to, a path may be none of the three shapes, or the nesting may go
deeper than allowed. Every error has an offset in the text and a wording.
-/
import ScimQuery.LexicalError
import ScimQuery.Token

namespace ScimQuery

/-- What has to come next, where something else does. -/
inductive Expected where
  | token (token : Token)
  | attributeName
  | attributePath
  | comparison
  | literal
  | connective
  /-- What goes on behind an attribute path in a filter. -/
  | testOrBracket
  /-- What an operand of a filter starts with. -/
  | operand
  deriving DecidableEq, Repr

/-- How an error message names what was expected. -/
def Expected.describe : Expected → String
  | .token t => t.describe
  | .attributeName => "an attribute identifier"
  | .attributePath => "a URN or an attribute identifier"
  | .comparison => "a comparative operator"
  | .literal => "a comparative value (number, string, or constant value)"
  | .connective => "a logical operator"
  | .testOrBracket => "space or '['"
  | .operand => "an attribute path, 'not' or '('"

/-- Why parsing failed. -/
inductive ParseError where
  /-- The text does not consist of tokens. -/
  | lexical (error : LexicalError)
  /-- Token number `index`, counted from zero, at `offset`, is `found`. -/
  | mismatch (expected : Expected) (index offset : Nat) (found : Token)
  /-- None of the three shapes of a path fits. -/
  | noPath (offset : Nat)
  /-- The group or bracket at `offset` would be nested deeper than `limit`. -/
  | tooDeep (limit offset : Nat)
  deriving DecidableEq, Repr

namespace ParseError

/-- The offset that an error is reported at. -/
def offset : ParseError → Nat
  | .lexical error => error.offset
  | .mismatch _ _ offset _ => offset
  | .noPath offset => offset
  | .tooDeep _ offset => offset

/-- The wording of an error. -/
def message : ParseError → String
  | .lexical error => "Lexical error: " ++ error.message
  | .mismatch expected index offset found =>
    "Syntax error: Expected " ++ expected.describe ++ " at token " ++ toString index
      ++ " (offset " ++ toString offset ++ "), but found " ++ found.describe
  | .noPath offset =>
    "Could not parse the path (no viable alternative) at offset " ++ toString offset
  | .tooDeep limit offset =>
    "Filter nesting exceeds " ++ toString limit ++ " levels at offset " ++ toString offset

end ParseError

end ScimQuery
