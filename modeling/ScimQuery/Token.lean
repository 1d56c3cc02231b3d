/-
ScimQuery.Token — the words and marks that a query consists of.

A token keeps the text it was read from: `Token.text` gives that text back,
so a list of tokens can be laid side by side again. A single space is a
token of its own, since the grammar asks for exactly one between two terms.
The end of the text is a token too, and the only one without text.
-/
import ScimQuery.Keyword

namespace ScimQuery

/-- The smallest meaningful piece of a query. -/
inductive Token where
  | eof
  | space
  | openParen
  | closeParen
  | openBracket
  | closeBracket
  /-- The dot in front of a sub-attribute. -/
  | dot
  /-- The colon between a schema and the attribute it qualifies. -/
  | colon
  | keyword (keyword : Keyword)
  /-- The URN of a schema. -/
  | urn (schema : String)
  | attribute (name : String)
  /-- A quoted string, with its quotes and its escape sequences as written. -/
  | string (literal : String)
  /-- A number, as written. -/
  | number (literal : String)
  deriving DecidableEq, Repr

namespace Token

/-- The text that a token is read from. -/
def text : Token → String
  | .eof => ""
  | .space => " "
  | .openParen => "("
  | .closeParen => ")"
  | .openBracket => "["
  | .closeBracket => "]"
  | .dot => "."
  | .colon => ":"
  | .keyword k => k.word
  | .urn schema => schema
  | .attribute name => name
  | .string literal => literal
  | .number literal => literal

/-- How an error message names a token. -/
def describe : Token → String
  | .eof => "end of input"
  | .space => "space"
  | .openParen => "'('"
  | .closeParen => "')'"
  | .openBracket => "'['"
  | .closeBracket => "']'"
  | .dot => "'.'"
  | .colon => "':'"
  | .keyword k => "keyword '" ++ k.word ++ "'"
  | .urn schema => "URN '" ++ schema ++ "'"
  | .attribute name => "attribute '" ++ name ++ "'"
  | .string literal => "string " ++ literal
  | .number literal => "number " ++ literal

end Token

/-- A token together with the offset of its first character, counted in
characters from the start of the text. -/
structure Located where
  offset : Nat
  token : Token
  deriving DecidableEq, Repr

end ScimQuery
