/-
ScimQuery.SchemaUrn — the URNs that qualify an attribute with its schema.

Two questions are answered about a text: does it try to be a URN
(`isAttempt`), and is it one (`isValid`)? A URN is cut at the marks that
can stand in one place only: the first colon behind `urn:` ends the
namespace identifier, the first `#` starts the fragment, and the first `?`
before that starts the query components. `Parts.ofText` makes the cuts, and
`Parts.isValid` looks at the four pieces one by one.

An r-component may contain `?=`, so behind `?+` the rest up to the fragment
is one component: a text that can also be read as an r-component and a
q-component is accepted either way.
-/
import ScimQuery.CharClass

namespace ScimQuery.SchemaUrn

open CharClass

/-- Whether the text starts with `urn:`, in any mixture of cases. -/
def isAttempt : List Char → Bool
  | u :: r :: n :: ':' :: _ => u.toLower == 'u' && r.toLower == 'r' && n.toLower == 'n'
  | _ => false

/-! ## Pieces of a URN -/

/-- The pieces of a URN behind `urn:`. The query and the fragment are kept
with the marks in front of them, and are empty when they are absent. -/
structure Parts where
  nid : List Char
  nss : List Char
  query : List Char
  fragment : List Char
  deriving DecidableEq, Repr

/-- Cuts what stands behind `urn:` at its first colon, its first `#` after
that, and the first `?` between the two. -/
def Parts.ofText (text : List Char) : Parts :=
  let name := (text.dropWhile (· != ':')).drop 1
  let main := name.takeWhile (· != '#')
  { nid := text.takeWhile (· != ':')
    nss := main.takeWhile (· != '?')
    query := main.dropWhile (· != '?')
    fragment := name.dropWhile (· != '#') }

/-- A namespace identifier: two to thirty-two letters, digits and hyphens,
with no hyphen at either end, and not the reserved word `urn`. -/
def isNamespaceId (nid : List Char) : Bool :=
  2 ≤ nid.length && nid.length ≤ 32 && nid.all isNid
    && nid.head? != some '-' && nid.getLast? != some '-'
    && nid.map Char.toLower != ['u', 'r', 'n']

/-- Any number of `pchar`s and of the further characters `extra`. A percent
sign counts only with two hex digits behind it. -/
def isPcharRun (extra : Char → Bool) : List Char → Bool
  | [] => true
  | '%' :: a :: b :: rest => isHexDigit a && isHexDigit b && isPcharRun extra rest
  | c :: rest => (isPlainPchar c || extra c) && isPcharRun extra rest

/-- A `pchar` followed by any number of `pchar`s and characters in `extra`. -/
def isPcharPiece (extra : Char → Bool) (text : List Char) : Bool :=
  text.head?.any (!extra ·) && isPcharRun extra text

/-- A namespace specific string. -/
def isSpecificString (nss : List Char) : Bool :=
  isPcharPiece (· == '/') nss

/-- The text of an r-, q- or f-component behind its mark. -/
def isComponentText (text : List Char) : Bool :=
  isPcharPiece (fun c => c == '/' || c == '?') text

/-- No query at all, or an r-component or a q-component with its mark. -/
def isQuery : List Char → Bool
  | [] => true
  | '?' :: '+' :: text => isComponentText text
  | '?' :: '=' :: text => isComponentText text
  | _ => false

/-- No fragment at all, or one with its mark. -/
def isFragment : List Char → Bool
  | [] => true
  | '#' :: text => isComponentText text
  | _ => false

/-- Whether each of the four pieces is as a URN has it. -/
def Parts.isValid (parts : Parts) : Bool :=
  isNamespaceId parts.nid && isSpecificString parts.nss
    && isQuery parts.query && isFragment parts.fragment

/-- Whether the text is a URN from its first to its last character. -/
def isValid (text : List Char) : Bool :=
  isAttempt text && (Parts.ofText (text.drop 4)).isValid

end ScimQuery.SchemaUrn
