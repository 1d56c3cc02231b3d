/-
ScimQuery.Proofs.InPlace.Token — reading a token in place.

The readers of this module keep to the whole text and to places in it: they look
at single characters, move on, and cut out what they have come over. Looking
behind the end is looking at nothing, but a cut is partial, and where one fails
there is no answer (`none`). A qualified name is cut at a byte, since that is
what a search in its text gives.

That every cut succeeds, and that the readers answer as `Token.read` does on what
is left of the text, is in `Proofs.InPlace.Agreement`.
-/
import ScimQuery.Proofs.InPlace.Slice
import ScimQuery.Token.Reader

namespace ScimQuery.InPlace

open CharClass

/-- What a read in place comes to: its result, and the place it has come to. -/
abbrev Outcome :=
  Except LexicalError Token × Nat

/-- The outcome of a read that starts at a place. -/
def outcome (start : Nat) : Except ReadFailure Token → Outcome
  | .ok token => (.ok token, start + token.length)
  | .error failure => (.error (failure.shift start).error, (failure.shift start).stop)

/-- A token that is spelled with a piece of the text takes as much of it. -/
theorem outcome_ok {token : Token} {piece : List Char} (h : token.text = String.ofList piece)
    (start : Nat) : outcome start (.ok token) = (.ok token, start + piece.length) := by
  rw [outcome, Token.length, h, String.length_ofList]

/-! ## 1. Numbers -/

/-- Behind the minus sign at a place. -/
def skipMinus (text : List Char) (place : Nat) : Nat :=
  if text[place]? = some '-' then place + 1 else place

/-- Behind the integer part at a place, if a digit stands there. -/
def skipInteger? (text : List Char) (place : Nat) : Option Nat :=
  if text[place]? = some '0' then some (place + 1)
  else if isAt Char.isDigit text place then some (skipDigits text place)
  else none

/-- Behind the fraction at a place. -/
def skipFraction (text : List Char) (place : Nat) : Nat :=
  if text[place]? = some '.' ∧ isAt Char.isDigit text (place + 1) = true then
    skipDigits text (place + 1)
  else place

/-- Behind the exponent at a place, or its error. -/
def skipExponent (text : List Char) (place : Nat) : Except LexicalError Nat :=
  if isAt (fun c => c == 'e' || c == 'E') text place then
    let digits := place + if isAt (fun c => c == '+' || c == '-') text (place + 1) then 2 else 1
    if isAt Char.isDigit text digits then .ok (skipDigits text digits)
    else .error ⟨.exponentDigitMissing, digits⟩
  else .ok place

/-- The number at a place. In front of an exponent without digits the reader
stops and reports an error that lies ahead. -/
def readNumber? (text : List Char) (start : Nat) : Option Outcome :=
  let sign := skipMinus text start
  match skipInteger? text sign with
  | none => some (.error ⟨.digitMissing, sign⟩, sign)
  | some whole =>
    let base := skipFraction text whole
    match skipExponent text base with
    | .error error => some (.error error, base)
    | .ok stop =>
      (slice? text start stop).map fun number => (.ok (.number (String.ofList number)), stop)

/-! ## 2. Strings -/

/-- Behind the quote that closes a string, from a place in the string on. The
reader stops where the error is. -/
def stringEnd (text : List Char) (place : Nat) : Except LexicalError Nat :=
  if h : place < text.length then
    if text[place] = '"' then .ok (place + 1)
    else if text[place] = '\\' then
      if text[place + 1]? = some 'u' then
        if isAt isHexDigit text (place + 2) && isAt isHexDigit text (place + 3) &&
            isAt isHexDigit text (place + 4) && isAt isHexDigit text (place + 5) then
          stringEnd text (place + 6)
        else .error ⟨.unicodeEscape, place⟩
      else if isAt Quoted.isShortEscape text (place + 1) then stringEnd text (place + 2)
      else .error ⟨.unknownEscape, place⟩
    else stringEnd text (place + 1)
  else .error ⟨.quoteMissing, place⟩
termination_by text.length - place

/-- The string at a place. -/
def readString? (text : List Char) (start : Nat) : Option Outcome :=
  match stringEnd text (start + 1) with
  | .error error => some (.error error, error.offset)
  | .ok stop =>
    (slice? text start stop).map fun string => (.ok (.string (String.ofList string)), stop)

/-! ## 3. Words -/

/-- Whether the run from `start` up to `place` is an attempt at a URN, as it is
decided once, by no more than four characters. -/
def attempted? (text : List Char) (start place : Nat) : Option Bool → Option Bool
  | some attempted => some attempted
  | none => (slice? text start (min place (start + 4))).map SchemaUrn.isAttempt

/-- Behind the run that starts at `start`, from a place in it on. At the first
joint it is decided whether the run is an attempt at a URN. -/
def runEnd? (text : List Char) (start place : Nat) (decided : Option Bool) : Option Nat :=
  if h : place < text.length then
    if !isRun text[place] then some place
    else if isJoint text[place] then
      (attempted? text start place decided).bind fun attempted =>
        if attempted then runEnd? text start (place + 1) (some attempted) else some place
    else runEnd? text start (place + 1) decided
  else some place
termination_by text.length - place

/-- The byte of the last colon. -/
def lastColon? (run : List Char) : Option Nat :=
  if ':' ∈ run then some (byteLength (Word.beforeLastColon run)) else none

/-- The schema of a qualified name, and the byte of the colon behind it. -/
def splitSchema? (run : List Char) : Option (Option (List Char × Nat)) :=
  match lastColon? run with
  | none => some none
  | some colon =>
    (sliceBytes? run 0 colon).bind fun schema =>
      (sliceBytes? run (colon + 1) (byteLength run)).map fun behind =>
        if SchemaUrn.isValid schema && AttributeName.isValid (behind.takeWhile (· != '.')) then
          some (schema, colon)
        else none

/-- The token of the run from `start` up to `stop`. -/
def classify? (run : List Char) (start stop : Nat) : Option Outcome :=
  match Keyword.ofWord? (String.ofList run) with
  | some keyword => some (.ok (.keyword keyword), stop)
  | none =>
    if AttributeName.isValid run then some (.ok (.attribute (String.ofList run)), stop)
    else if SchemaUrn.isAttempt run then
      (splitSchema? run).map fun
        | some (schema, colon) => (.ok (.urn (String.ofList schema)), start + colon)
        | none =>
          if SchemaUrn.isValid run then (.ok (.urn (String.ofList run)), stop)
          else (.error ⟨.malformedUrn, start⟩, stop)
    else some (.error ⟨.malformedName, start⟩, stop)

/-- The word at a place. -/
def readWord? (text : List Char) (start : Nat) : Option Outcome :=
  (runEnd? text start start none).bind fun stop =>
    (slice? text start stop).bind fun run => classify? run start stop

/-! ## 4. Tokens -/

/-- The token that a character is by itself. -/
def mark? : Char → Option Token
  | ' ' => some .space
  | '(' => some .openParen
  | ')' => some .closeParen
  | '[' => some .openBracket
  | ']' => some .closeBracket
  | '.' => some .dot
  | ':' => some .colon
  | _ => none

/-- The token at a place. -/
def read? (text : List Char) (place : Nat) : Option Outcome :=
  match text[place]? with
  | none => some (.ok .eof, place)
  | some c =>
    match mark? c with
    | some token => some (.ok token, place + 1)
    | none =>
      if c == '"' then readString? text place
      else if c.isDigit || c == '-' then readNumber? text place
      else if c.isAlpha then readWord? text place
      else some (.error ⟨.strayCharacter c, place⟩, place)

end ScimQuery.InPlace
