/-
ScimQuery.Token.Reader — from a text to its tokens.

`Token.read` gives the token that a text starts with; the token takes as
many characters as its own text has. `Token.ofText` reads token after token
up to the end, and `Token.Reader` is a session over one text that reads
from a position of its own and can return to positions it has saved.
-/
import ScimQuery.Token
import ScimQuery.Token.Number
import ScimQuery.Token.Quoted
import ScimQuery.Token.Word

namespace ScimQuery

/-! ## One token -/

/-- The token that the text starts with. Its first character decides what
kind of token it is. -/
def Token.read : List Char → Except ReadFailure Token
  | [] => .ok .eof
  | ' ' :: _ => .ok .space
  | '(' :: _ => .ok .openParen
  | ')' :: _ => .ok .closeParen
  | '[' :: _ => .ok .openBracket
  | ']' :: _ => .ok .closeBracket
  | '.' :: _ => .ok .dot
  | ':' :: _ => .ok .colon
  | c :: rest =>
    if c == '"' then (Quoted.read (c :: rest)).map (.string <| String.ofList ·)
    else if c.isDigit || c == '-' then (Number.read (c :: rest)).map (.number <| String.ofList ·)
    else if c.isAlpha then Word.read (c :: rest)
    else .error (.of (.strayCharacter c) 0 0)

/-- How many characters a token takes. -/
def Token.length (token : Token) : Nat :=
  token.text.length

/-! ## All tokens -/

/-- The tokens of the text, which starts at `offset`. The first `pending`
characters belong to a token that has been read already and are passed over.
The list ends with the end of the text. -/
def Token.listFrom (offset pending : Nat) : List Char → Except ReadFailure (List Located)
  | [] => .ok [⟨offset, .eof⟩]
  | c :: rest =>
    match pending with
    | pending + 1 => listFrom (offset + 1) pending rest
    | 0 =>
      match Token.read (c :: rest) with
      | .error failure => .error (failure.shift offset)
      | .ok token => (listFrom (offset + 1) (token.length - 1) rest).map (⟨offset, token⟩ :: ·)

/-- The tokens of a text, up to and with its end. -/
def Token.ofText (text : String) : Except LexicalError (List Located) :=
  match Token.listFrom 0 0 text.toList with
  | .ok tokens => .ok tokens
  | .error failure => .error failure.error

/-! ## Reading sessions -/

/-- A session over a text: the characters of the text, the position that the
next token is read from, and the positions saved for a return, the latest
first. -/
structure Token.Reader where
  text : List Char
  position : Nat
  saved : List Nat
  deriving DecidableEq, Repr

namespace Token.Reader

/-- A session at the start of a text. -/
def ofText (text : String) : Reader :=
  ⟨text.toList, 0, []⟩

/-- The characters that are still to be read. -/
def rest (reader : Reader) : List Char :=
  reader.text.drop reader.position

/-- Reads one token. A failed read leaves the session where it stopped. -/
def next (reader : Reader) : Except LexicalError Token × Reader :=
  match Token.read reader.rest with
  | .ok token => (.ok token, { reader with position := reader.position + token.length })
  | .error failure =>
    let failure := failure.shift reader.position
    (.error failure.error, { reader with position := failure.stop })

/-- Reads all tokens that are left. Afterwards the session is at the end of
the text, or where the failed read stopped. -/
def readAll (reader : Reader) : Except LexicalError (List Located) × Reader :=
  match Token.listFrom reader.position 0 reader.rest with
  | .ok tokens => (.ok tokens, { reader with position := reader.position + reader.rest.length })
  | .error failure => (.error failure.error, { reader with position := failure.stop })

/-- Saves the position. -/
def save (reader : Reader) : Reader :=
  { reader with saved := reader.position :: reader.saved }

/-- Drops the position saved last and stays where it is. -/
def forget (reader : Reader) : Reader :=
  { reader with saved := reader.saved.tail }

/-- Returns to the position saved last and drops it. Without a saved position
nothing happens. -/
def restore (reader : Reader) : Reader :=
  match reader.saved with
  | [] => reader
  | position :: saved => { reader with position, saved }

end Token.Reader

end ScimQuery
