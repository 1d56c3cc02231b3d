/-
ScimQuery.Token.Quoted — the quoted string that a text starts with.

A string runs from its opening quote to the next quote that no escape
sequence takes. Every character other than a quote and a backslash stands
for itself here, control characters too; a backslash has to start one of the
short escapes or `u` and four hex digits. Whether the escapes denote
characters is not asked: the literal is kept as it is written.
-/
import ScimQuery.CharClass
import ScimQuery.LexicalError

namespace ScimQuery.Quoted

open CharClass

/-- The characters that make an escape sequence with a backslash alone. -/
def isShortEscape (c : Char) : Bool :=
  "\"\\/bfnrt".toList.contains c

/-- What stands behind the opening quote, up to and with the closing one.
`offset` counts the characters in front. A failed read stops where the error
is: on the backslash, or at the end of the text. -/
def readBody (offset : Nat) : List Char → Except ReadFailure (List Char)
  | [] => .error (.of .quoteMissing offset offset)
  | '"' :: _ => .ok ['"']
  | '\\' :: 'u' :: a :: b :: c :: d :: rest =>
    if isHexDigit a && isHexDigit b && isHexDigit c && isHexDigit d then
      (readBody (offset + 6) rest).map (['\\', 'u', a, b, c, d] ++ ·)
    else
      .error (.of .unicodeEscape offset offset)
  | '\\' :: 'u' :: _ => .error (.of .unicodeEscape offset offset)
  | '\\' :: c :: rest =>
    if isShortEscape c then
      (readBody (offset + 2) rest).map (['\\', c] ++ ·)
    else
      .error (.of .unknownEscape offset offset)
  | ['\\'] => .error (.of .unknownEscape offset offset)
  | c :: rest => (readBody (offset + 1) rest).map (c :: ·)

/-- The quoted string that the text starts with; its first character is
taken to be the opening quote. -/
def read (text : List Char) : Except ReadFailure (List Char) :=
  (readBody 1 (text.drop 1)).map ('"' :: ·)

end ScimQuery.Quoted
