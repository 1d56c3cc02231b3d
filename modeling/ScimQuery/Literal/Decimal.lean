/-
ScimQuery.Literal.Decimal — the decimal number that a number literal
denotes.

A decimal is a sign, a mantissa below `2 ^ 96` and a scale of at most 28,
and stands for the mantissa over ten to the scale. Trailing zeros count:
`1.10` has scale two. Reading a literal takes its digits one by one.

* Integer digits have to fit the mantissa.
* The first fraction digit that fits no more, either because the scale is
  full or because the mantissa is, rounds the mantissa, half upwards. Nothing
  behind it is looked at, whatever it is.
* A negative exponent is added to the scale, which has to stay within its
  bound. A positive one is taken off the scale as long as that is large
  enough; else the number is an integer, and has to fit the mantissa.

The literal need not be a number of the query language. A sign `+`, a
missing integer or fraction part, leading zeros and low lines behind the
first digit are allowed too. A low line is passed over, except in the place
that decides the rounding: `behindLastPlace` says when it counts as a zero
there.
-/
namespace ScimQuery

/-- A decimal number: `mantissa / 10 ^ scale`, negated if `negative`. -/
structure Decimal where
  negative : Bool
  mantissa : Nat
  scale : Nat
  deriving DecidableEq, Repr

/-- Why a literal has no decimal value. -/
inductive DecimalError where
  /-- The text is no number, or its exponent has no place in 32 bits. -/
  | malformed
  /-- The integer digits do not fit the mantissa. -/
  | tooManyDigits
  /-- The mantissa of an integer was full and has been rounded up. -/
  | roundingOverflow
  /-- The exponent asks for more places than a decimal has. -/
  | scaleTooLarge (scale : Nat)
  /-- The exponent makes the mantissa too large. -/
  | tooLarge
  deriving DecidableEq, Repr

namespace Decimal

/-- Every mantissa is below this bound. -/
def mantissaBound : Nat := Nat.pow 2 96

/-- A mantissa from here on is wide: one more digit and a margin of 255 may
not fit 64 bits. -/
def wideBound : Nat := (Nat.pow 2 64 - 1) / 10 - 255

/-- The largest scale. -/
def maxScale : Nat := 28

/-- Every exponent is below this bound. -/
def exponentBound : Nat := Nat.pow 2 32

end Decimal

/-- The wording of an error. -/
def DecimalError.message : DecimalError → String
  | .malformed => "Failed to parse"
  | .tooManyDigits => "Invalid decimal: overflow from too many digits"
  | .roundingOverflow => "Invalid decimal: overflow from mantissa after rounding"
  | .scaleTooLarge scale =>
    "Scale exceeds the maximum precision allowed: " ++ toString scale ++ " > "
      ++ toString Decimal.maxScale
  | .tooLarge => "Number exceeds maximum value that can be represented."

namespace Decimal

/-! ## Digits -/

/-- The value of a digit. -/
def digitValue (c : Char) : Nat :=
  c.toNat - '0'.toNat

/-- The number that a row of digits denotes. -/
def digitsValue (digits : List Char) : Nat :=
  digits.foldl (fun value c => value * 10 + digitValue c) 0

/-- Rounds the mantissa `m` of scale `s` by the digit `c` that did not fit. A
mantissa that is full after that loses its last digit. -/
def round (m s : Nat) (c : Char) : Except DecimalError (Nat × Nat) :=
  if digitValue c < 5 then .ok (m, s)
  else if m + 1 < mantissaBound then .ok (m + 1, s)
  else if s = 0 then .error .roundingOverflow
  else .ok ((m + 5) / 10, s - 1)

/-! ## Places -/

/-- The mantissa and scale when `m` fills the scale and `text` stands behind
it. A digit right there rounds; a point there counts as a zero. A low line
counts as a zero too, unless the mantissa is `wide`: then low lines are
passed over, and only a digit may follow them. -/
def behindLastPlace (wide : Bool) (m : Nat) (text : List Char) :
    Except DecimalError (Nat × Nat) :=
  match text with
  | [] => .ok (m, maxScale)
  | '.' :: _ => .ok (m, maxScale)
  | '_' :: rest =>
    if wide then
      match rest.dropWhile (· == '_') with
      | [] => .ok (m, maxScale)
      | c :: _ => if c.isDigit then round m maxScale c else .error .malformed
    else .ok (m, maxScale)
  | c :: _ => if c.isDigit then round m maxScale c else .error .malformed

/-- The mantissa and scale of a number that has the mantissa `m` and the
scale `s` in front of the text, with the point among what is in front.
`started` tells whether a digit is there as well. -/
def readFraction (started : Bool) (m s : Nat) : List Char → Except DecimalError (Nat × Nat)
  | [] => if started then .ok (m, s) else .error .malformed
  | c :: rest =>
    let next := m * 10 + digitValue c
    if c.isDigit then
      if mantissaBound ≤ next then round m s c
      else if s + 1 = maxScale then behindLastPlace (wideBound ≤ m) next rest
      else readFraction true next (s + 1) rest
    else if c == '_' && started then readFraction started m s rest
    else .error .malformed

/-- The mantissa and scale of a number that has the mantissa `m` and no point
in front of the text. `started` tells whether a digit is there. -/
def readInteger (started : Bool) (m : Nat) : List Char → Except DecimalError (Nat × Nat)
  | [] => if started then .ok (m, 0) else .error .malformed
  | c :: rest =>
    let next := m * 10 + digitValue c
    if c.isDigit then
      if mantissaBound ≤ next then .error .tooManyDigits else readInteger true next rest
    else if c == '.' then readFraction started m 0 rest
    else if c == '_' && started then readInteger started m rest
    else .error .malformed

/-! ## Signs and exponents -/

/-- A text without the sign it starts with, and whether that is a minus. -/
def takeSign : List Char → Bool × List Char
  | '-' :: rest => (true, rest)
  | '+' :: rest => (false, rest)
  | text => (false, text)

/-- The decimal that a text without an exponent denotes. -/
def ofPlain (text : List Char) : Except DecimalError Decimal := do
  let (negative, unsigned) := takeSign text
  let (mantissa, scale) ← readInteger false 0 unsigned
  return ⟨negative && mantissa != 0, mantissa, scale⟩

/-- An exponent, as its sign and its size. A plus sign may stand in front of
the digits, behind the minus sign too. -/
def readExponent (text : List Char) : Except DecimalError (Bool × Nat) :=
  let (negative, unsigned) :=
    match text with
    | '-' :: rest => (true, rest)
    | _ => (false, text)
  let digits :=
    match unsigned with
    | '+' :: rest => rest
    | _ => unsigned
  if digits.isEmpty || !digits.all Char.isDigit then .error .malformed
  else if exponentBound ≤ digitsValue digits then .error .malformed
  else .ok (negative, digitsValue digits)

/-- The decimal divided by ten to the `n`. -/
def scaleDown (d : Decimal) (n : Nat) : Except DecimalError Decimal :=
  if maxScale < n then .error (.scaleTooLarge n)
  else if maxScale < d.scale + n then .error (.scaleTooLarge (d.scale + n))
  else .ok { d with scale := d.scale + n }

/-- The decimal multiplied by ten to the `n`. -/
def scaleUp (d : Decimal) (n : Nat) : Except DecimalError Decimal :=
  if n ≤ d.scale then .ok { d with scale := d.scale - n }
  else if maxScale < n then .error (.scaleTooLarge n)
  else
    let mantissa := d.mantissa * Nat.pow 10 (n - d.scale)
    if mantissa < mantissaBound then .ok { d with mantissa, scale := 0 } else .error .tooLarge

/-- Whether a character introduces an exponent. -/
def isExponentMark (c : Char) : Bool :=
  c == 'e' || c == 'E'

/-- The decimal that a literal denotes. -/
def ofText (text : String) : Except DecimalError Decimal := do
  let base ← ofPlain (text.toList.takeWhile (!isExponentMark ·))
  match text.toList.dropWhile (!isExponentMark ·) with
  | [] => return base
  | _ :: exponent =>
    let (negative, size) ← readExponent exponent
    if negative then base.scaleDown size else base.scaleUp size

/-! ## Text of a decimal -/

/-- The digits of a decimal: as many behind the point as the scale says, and
at least one in front of it. Without a scale there is no point. -/
def text (d : Decimal) : String :=
  let digits := (Nat.toDigits 10 d.mantissa).leftpad (d.scale + 1) '0'
  let whole := digits.take (digits.length - d.scale)
  let fraction := digits.drop (digits.length - d.scale)
  let sign := if d.negative then ['-'] else []
  let point := if d.scale = 0 then [] else ['.']
  String.ofList (sign ++ whole ++ point ++ fraction)

end Decimal

end ScimQuery
