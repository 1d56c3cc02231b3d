/-
ScimQuery.Literal.Decoding — the characters that a quoted string stands for.

A literal is cut into pieces first: characters that stand for themselves,
short escapes, and `u` escapes, each of which is one UTF-16 unit (`pieces?`).
The pieces are then put together (`decodePieces`). A unit that leads a
surrogate pair has to be followed by one that trails a pair, and the two are
one character. Control characters have to be escaped.

Errors carry the place where the reading ended: the line, counted from one,
and the number of bytes read on that line, in UTF-8.

Decoding knows nothing of how the query language finds the end of a string:
it takes a whole literal, with blanks around it or not.
-/
import ScimQuery.CharClass

namespace ScimQuery.Decoding

open CharClass

/-! ## Errors -/

/-- A place in a literal: the line, and the bytes of that line in front. -/
structure Place where
  line : Nat
  column : Nat
  deriving DecidableEq, Repr

/-- The place behind `n` bytes that are no line break. -/
def Place.forward (place : Place) (n : Nat) : Place :=
  { place with column := place.column + n }

/-- The place behind a character of which `n` bytes have been read. -/
def Place.behind (place : Place) (c : Char) (n : Nat) : Place :=
  if c == '\n' then ⟨place.line + 1, 0⟩ else place.forward n

/-- Why a literal stands for no string. -/
inductive Cause where
  /-- A control character that is not escaped. -/
  | controlCharacter
  /-- A unit of a surrogate pair that has no partner. -/
  | loneSurrogate
  /-- No `u` escape follows a unit that leads a pair. -/
  | unfinishedPair
  /-- The text is not one quoted string. -/
  | notAString
  deriving DecidableEq, Repr

/-- The wording of a cause. -/
def Cause.message : Cause → String
  | .controlCharacter => "control character (\\u0000-\\u001F) found while parsing a string"
  | .loneSurrogate => "lone leading surrogate in hex escape"
  | .unfinishedPair => "unexpected end of hex escape"
  | .notAString => "expected one quoted string"

/-- A cause and the place where the reading ended. -/
structure Error where
  cause : Cause
  place : Place
  deriving DecidableEq, Repr

/-- The wording of an error, with its place. -/
def Error.message (error : Error) : String :=
  error.cause.message ++ " at line " ++ toString error.place.line
    ++ " column " ++ toString error.place.column

/-! ## Pieces -/

/-- A part of a quoted string. -/
inductive Piece where
  /-- A character that stands for itself. -/
  | plain (c : Char)
  /-- A backslash and one character, which stand for `c`. -/
  | short (c : Char)
  /-- A backslash, `u` and four hex digits: a UTF-16 unit. -/
  | unit (value : Nat)
  deriving DecidableEq, Repr

/-- The character that a short escape stands for. -/
def shortEscape? : Char → Option Char
  | '"' => some '"'
  | '\\' => some '\\'
  | '/' => some '/'
  | 'b' => some '\x08'
  | 'f' => some '\x0c'
  | 'n' => some '\n'
  | 'r' => some '\r'
  | 't' => some '\t'
  | _ => none

/-- The UTF-16 unit that four hex digits denote. -/
def unitValue (a b c d : Char) : Nat :=
  ((hexValue a * 16 + hexValue b) * 16 + hexValue c) * 16 + hexValue d

/-- The pieces of the string that ends at the first quote, and the text
behind that quote. -/
def pieces? : List Char → Option (List Piece × List Char)
  | [] => none
  | '"' :: rest => some ([], rest)
  | '\\' :: 'u' :: a :: b :: c :: d :: rest =>
    if isHexDigit a && isHexDigit b && isHexDigit c && isHexDigit d then
      (pieces? rest).map fun (pieces, behind) => (.unit (unitValue a b c d) :: pieces, behind)
    else none
  | '\\' :: c :: rest =>
    match shortEscape? c with
    | some e => (pieces? rest).map fun (pieces, behind) => (.short e :: pieces, behind)
    | none => none
  | '\\' :: [] => none
  | c :: rest => (pieces? rest).map fun (pieces, behind) => (.plain c :: pieces, behind)

/-! ## Putting the pieces together -/

/-- Whether a unit leads a surrogate pair. -/
def isLeading (unit : Nat) : Bool :=
  0xD800 ≤ unit && unit < 0xDC00

/-- Whether a unit trails a surrogate pair. -/
def isTrailing (unit : Nat) : Bool :=
  0xDC00 ≤ unit && unit < 0xE000

/-- The character that a surrogate pair denotes. -/
def pairedChar (leading trailing : Nat) : Char :=
  Char.ofNat (0x10000 + (leading - 0xD800) * 0x400 + (trailing - 0xDC00))

/-- The place where the reading ends when `piece` follows a unit that leads a
pair and does not complete it. The first byte that rules a `u` escape out is
the last one read. -/
def Place.behindFailedPair (place : Place) : Option Piece → Place
  | none => place.forward 1
  | some (.plain c) => place.behind c 1
  | some (.short _) => place.forward 2
  | some (.unit _) => place.forward 6

/-- The characters that the pieces stand for. `place` is the place in front
of the first piece. -/
def decodePieces (place : Place) : List Piece → Except Error (List Char)
  | [] => .ok []
  | .plain c :: rest =>
    if c < ' ' then .error ⟨.controlCharacter, place.behind c 1⟩
    else (decodePieces (place.forward c.utf8Size) rest).map (c :: ·)
  | .short c :: rest => (decodePieces (place.forward 2) rest).map (c :: ·)
  | .unit value :: rest =>
    if isTrailing value then .error ⟨.loneSurrogate, place.forward 6⟩
    else if isLeading value then
      match rest with
      | .unit trailing :: rest =>
        if isTrailing trailing then
          (decodePieces (place.forward 12) rest).map (pairedChar value trailing :: ·)
        else .error ⟨.loneSurrogate, place.forward 12⟩
      | rest => .error ⟨.unfinishedPair, (place.forward 6).behindFailedPair rest.head?⟩
    else (decodePieces (place.forward 6) rest).map (Char.ofNat value :: ·)

/-! ## Whole literals -/

/-- The blanks that may stand around a string. -/
def isBlank (c : Char) : Bool :=
  c == ' ' || c == '\t' || c == '\n' || c == '\r'

/-- The place behind a row of blanks at the start of a literal. -/
def Place.behindBlanks (blanks : List Char) : Place :=
  blanks.foldl (fun place c => place.behind c 1) ⟨1, 0⟩

/-- The string that a literal stands for. -/
def decode (literal : String) : Except Error String :=
  let text := literal.toList
  let start := Place.behindBlanks (text.takeWhile isBlank)
  match text.dropWhile isBlank with
  | '"' :: body =>
    match pieces? body with
    | some (pieces, behind) =>
      if behind.all isBlank then (decodePieces (start.forward 1) pieces).map String.ofList
      else .error ⟨.notAString, start⟩
    | none => .error ⟨.notAString, start⟩
  | _ => .error ⟨.notAString, start⟩

end ScimQuery.Decoding
