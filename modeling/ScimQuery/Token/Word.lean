/-
ScimQuery.Token.Word — the keyword, attribute name or URN that a text
starts with.

A word is read in two steps. First comes its run (`run`): the characters
that a word may have, as far as they reach. Parentheses and the dot may
stand in a URN and are punctuation elsewhere, so at the first of them it is
decided whether the run is an attempt at a URN; if it is not, the run ends
there. The answer cannot change behind that character, so it is asked once.

Then the run is classified (`classify`): a keyword, an attribute name, a
schema URN with an attribute behind its last colon, or a URN as a whole. The
schema comes first since it is what a query means by such a text, even where
the whole text is a URN too. The token is then the schema alone, and what
stands behind it is read again.
-/
import ScimQuery.AttributeName
import ScimQuery.LexicalError
import ScimQuery.SchemaUrn
import ScimQuery.Token

namespace ScimQuery.Word

open CharClass

/-! ## The run -/

/-- The rest of a run behind the first `taken` characters of `text`.
`decided` holds the answer whether the run is an attempt at a URN, once it
has been asked; only four characters matter for it. -/
def runFrom (text : List Char) (taken : Nat) (decided : Option Bool) :
    List Char → List Char
  | [] => []
  | c :: rest =>
    if !isRun c then []
    else if isJoint c then
      let attempted := decided.getD (SchemaUrn.isAttempt (text.take (min taken 4)))
      if attempted then c :: runFrom text (taken + 1) (some attempted) rest else []
    else c :: runFrom text (taken + 1) decided rest

/-- The characters at the start of the text that one word reaches over. -/
def run (text : List Char) : List Char :=
  runFrom text 0 none text

/-! ## The word in a run -/

/-- What stands in front of the last colon. -/
def beforeLastColon (run : List Char) : List Char :=
  ((run.reverse.dropWhile (· != ':')).drop 1).reverse

/-- What stands behind the last colon. -/
def behindLastColon (run : List Char) : List Char :=
  (run.reverse.takeWhile (· != ':')).reverse

/-- The schema of a qualified name: the URN in front of the last colon, when
an attribute name stands behind it, alone or with a dot after it. -/
def schema? (run : List Char) : Option (List Char) :=
  let schema := beforeLastColon run
  let name := (behindLastColon run).takeWhile (· != '.')
  if SchemaUrn.isValid schema && AttributeName.isValid name then some schema else none

/-- The token at the start of a run. -/
def classify (run : List Char) : Except LexicalError.Cause Token :=
  match Keyword.ofWord? (String.ofList run) with
  | some keyword => .ok (.keyword keyword)
  | none =>
    if AttributeName.isValid run then .ok (.attribute (String.ofList run))
    else if SchemaUrn.isAttempt run then
      match schema? run with
      | some schema => .ok (.urn (String.ofList schema))
      | none =>
        if SchemaUrn.isValid run then .ok (.urn (String.ofList run))
        else .error .malformedUrn
    else .error .malformedName

/-- The token of the word that the text starts with. The error of a word is
reported at its first character, and a failed read stops behind the run. -/
def read (text : List Char) : Except ReadFailure Token :=
  match classify (run text) with
  | .ok token => .ok token
  | .error cause => .error (.of cause 0 (run text).length)

end ScimQuery.Word
