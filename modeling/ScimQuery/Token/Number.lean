/-
ScimQuery.Token.Number — the number that a text starts with.

A number is an optional minus sign, an integer part without leading zeros,
a fraction, and an exponent. The dot is taken only together with a digit
behind it, so `1.` is the number `1` and a dot. An `e` behind a number is
always taken for an exponent, and it is an error when no digit follows it.
-/
import ScimQuery.LexicalError

namespace ScimQuery.Number

/-- The minus sign that the text starts with. -/
def minus : List Char → List Char
  | '-' :: _ => ['-']
  | _ => []

/-- The integer part that the text starts with: a zero, or all the digits. -/
def integer : List Char → List Char
  | '0' :: _ => ['0']
  | text => text.takeWhile Char.isDigit

/-- The fraction that the text starts with: a dot and at least one digit. -/
def fraction : List Char → List Char
  | '.' :: text =>
    match text.takeWhile Char.isDigit with
    | [] => []
    | digits => '.' :: digits
  | _ => []

/-- The sign that an exponent starts with. -/
def exponentSign : List Char → List Char
  | '+' :: _ => ['+']
  | '-' :: _ => ['-']
  | _ => []

/-- The mark of an exponent that the text starts with: an `e` in either
case and the sign behind it. -/
def exponentMark : List Char → List Char
  | 'e' :: text => 'e' :: exponentSign text
  | 'E' :: text => 'E' :: exponentSign text
  | _ => []

/-- The number that the text starts with. A failed read stops behind the
minus sign if no digit follows it, and in front of the `e` if the exponent
has no digits. -/
def read (text : List Char) : Except ReadFailure (List Char) :=
  let sign := minus text
  let whole := integer (text.drop sign.length)
  if whole.isEmpty then
    .error (.of .digitMissing sign.length sign.length)
  else
    let base := sign ++ whole ++ fraction (text.drop (sign ++ whole).length)
    let rest := text.drop base.length
    match exponentMark rest with
    | [] => .ok base
    | mark =>
      match (rest.drop mark.length).takeWhile Char.isDigit with
      | [] => .error (.of .exponentDigitMissing (base ++ mark).length base.length)
      | digits => .ok (base ++ mark ++ digits)

end ScimQuery.Number
