/-
ScimQuery.AttributeName — the names of attributes and of sub-attributes.

A name starts with a letter and goes on with letters, digits, hyphens and
underscores. Nothing is said here about keywords: a word that is spelled
like a name may still be reserved.
-/
import ScimQuery.CharClass

namespace ScimQuery.AttributeName

/-- A letter, then letters, digits, `-` and `_`. -/
def isValid : List Char → Bool
  | [] => false
  | first :: rest => first.isAlpha && rest.all CharClass.isNameChar

end ScimQuery.AttributeName
