/-
ScimQuery.CharClass — the character classes of the query grammar.

Every class is a set of ASCII characters. Letters and digits are
`Char.isAlpha` and `Char.isDigit`; the classes below are built on them, on
the URI classes (`sub-delims`, `unreserved`, `pchar`), on the parts of a URN
and on the attribute names of SCIM. A character outside ASCII belongs to
none of them.

The class that decides how far a word reaches is `isRun`. It holds every
character of an attribute name, of a constant and of a URN, so no word of
the grammar is cut short by it.
-/
namespace ScimQuery.CharClass

/-! ## Digits -/

/-- A hexadecimal digit, in either case. -/
def isHexDigit (c : Char) : Bool :=
  c.isDigit || ('a' ≤ c && c ≤ 'f') || ('A' ≤ c && c ≤ 'F')

/-- The value of a hexadecimal digit; `0` for every other character. -/
def hexValue (c : Char) : Nat :=
  if c.isDigit then c.toNat - '0'.toNat
  else if 'a' ≤ c && c ≤ 'f' then c.toNat - 'a'.toNat + 10
  else if 'A' ≤ c && c ≤ 'F' then c.toNat - 'A'.toNat + 10
  else 0

/-! ## URI classes -/

/-- The `sub-delims` of a URI. -/
def isSubDelim (c : Char) : Bool :=
  "!$&'()*+,;=".toList.contains c

/-- The `unreserved` characters of a URI. -/
def isUnreserved (c : Char) : Bool :=
  c.isAlpha || c.isDigit || "-._~".toList.contains c

/-- A `pchar` that stands for itself, that is, one that is no percent triplet. -/
def isPlainPchar (c : Char) : Bool :=
  isUnreserved c || isSubDelim c || c == ':' || c == '@'

/-- The characters a `pchar` is written with. The percent sign and the hex
digits of a triplet count one by one. -/
def isPchar (c : Char) : Bool :=
  isPlainPchar c || isHexDigit c || c == '%'

/-! ## URN classes -/

/-- The characters of a namespace identifier. -/
def isNid (c : Char) : Bool :=
  c.isAlpha || c.isDigit || c == '-'

/-- The characters of a namespace specific string. -/
def isNss (c : Char) : Bool :=
  isPchar c || c == '/'

/-- The characters of the query and fragment components, the marks in front
of them included. -/
def isComponent (c : Char) : Bool :=
  isPchar c || "/?+#".toList.contains c

/-- Every character that a URN can be written with. -/
def isNamestring (c : Char) : Bool :=
  isNid c || isNss c || isComponent c || c == ':'

/-! ## Words -/

/-- The letters of the constants `false`, `null` and `true`. -/
def isConstantLetter (c : Char) : Bool :=
  "aeflnrstu".toList.contains c

/-- The characters of an attribute name behind its first letter. -/
def isNameChar (c : Char) : Bool :=
  c.isAlpha || c.isDigit || c == '-' || c == '_'

/-- The characters that a keyword, an attribute name or a URN is read over
without stopping. -/
def isRun (c : Char) : Bool :=
  isNameChar c || isConstantLetter c || isNamestring c

/-- Parentheses and the dot may stand in a URN, and they are punctuation of
the query language as well. -/
def isJoint (c : Char) : Bool :=
  c == '(' || c == ')' || c == '.'

end ScimQuery.CharClass
