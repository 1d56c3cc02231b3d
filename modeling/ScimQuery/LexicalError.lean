/-
ScimQuery.LexicalError — why a text is not a sequence of tokens.

An error is a cause and the offset it is reported at. The causes fall into
five categories, and each has its wording. A reader that fails also says how
far it had come (`ReadFailure`), since the place an error is reported at may
lie ahead of the last character that was taken.
-/
namespace ScimQuery

/-- The kind of text that an error is about. -/
inductive LexicalError.Category where
  | number
  | string
  | character
  | urn
  | attribute
  deriving DecidableEq, Repr

/-- What is wrong with the text. -/
inductive LexicalError.Cause where
  /-- A minus sign without a digit behind it. -/
  | digitMissing
  /-- An `e` in a number without a digit behind it or behind its sign. -/
  | exponentDigitMissing
  /-- The text ends inside a quoted string. -/
  | quoteMissing
  /-- A backslash and `u` without four hex digits behind them. -/
  | unicodeEscape
  /-- A backslash that starts no escape sequence. -/
  | unknownEscape
  /-- A character that starts no token. -/
  | strayCharacter (c : Char)
  /-- A word that starts with `urn:` and is no URN. -/
  | malformedUrn
  /-- A word that is no attribute name. -/
  | malformedName
  /-- A literal was asked for, and the text starts with another token. -/
  | literalMissing
  /-- A literal was asked for, and the text goes on behind it. -/
  | textBehindLiteral
  deriving DecidableEq, Repr

/-- The category a cause belongs to. -/
def LexicalError.Cause.category : LexicalError.Cause → LexicalError.Category
  | .digitMissing => .number
  | .exponentDigitMissing => .number
  | .quoteMissing => .string
  | .unicodeEscape => .string
  | .unknownEscape => .string
  | .strayCharacter _ => .character
  | .malformedUrn => .urn
  | .malformedName => .attribute
  | .literalMissing => .character
  | .textBehindLiteral => .character

/-- The wording of a cause. -/
def LexicalError.Cause.message : LexicalError.Cause → String
  | .digitMissing => "Expected digit"
  | .exponentDigitMissing => "Expected digit in exponent"
  | .quoteMissing => "Unexpected end of input"
  | .unicodeEscape => "Invalid unicode escape sequence"
  | .unknownEscape => "Invalid escape sequence"
  | .strayCharacter c => "Unexpected character '" ++ c.toString ++ "'"
  | .malformedUrn => "An attempted URN is malformed or contains invalid characters"
  | .malformedName => "An identifier contains invalid characters"
  | .literalMissing => "Expected a comparative value"
  | .textBehindLiteral => "Unexpected text after the value"

/-- A cause and the offset it is reported at. -/
structure LexicalError where
  cause : LexicalError.Cause
  offset : Nat
  deriving DecidableEq, Repr

/-- The wording of an error, with the offset it is reported at. -/
def LexicalError.message (error : LexicalError) : String :=
  error.cause.message ++ " at offset " ++ toString error.offset

/-- A failed read: its error, and the offset the reader had come to. -/
structure ReadFailure where
  error : LexicalError
  stop : Nat
  deriving DecidableEq, Repr

/-- A failure at `offset`, by a reader that had come to `stop`. -/
def ReadFailure.of (cause : LexicalError.Cause) (offset stop : Nat) : ReadFailure :=
  ⟨⟨cause, offset⟩, stop⟩

/-- The same failure in a text with `n` more characters in front. -/
def ReadFailure.shift (n : Nat) (failure : ReadFailure) : ReadFailure :=
  ⟨⟨failure.error.cause, n + failure.error.offset⟩, n + failure.stop⟩

end ScimQuery
