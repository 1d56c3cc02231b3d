/-
ScimQuery.Parsing.TokenStream — the tokens that are still to be parsed.

A stream is the tokens from the current one on, the number of the current
token, and how many groups and brackets are open around it. A parser
(`Parse`) moves along the stream and gives a result or an error; either way
it leaves a stream behind, so it can be told how far a failed parser came.
`orNone` takes a failed parser's steps back.

The last token is never left. It is the end of the text, so whoever stands
on it finds the end however often it is asked for.
-/
import ScimQuery.Parsing.Error

namespace ScimQuery

/-- The tokens from the current one on, the number of tokens in front of it,
and the depth of nesting at it. -/
structure TokenStream where
  rest : List Located
  index : Nat
  depth : Nat
  deriving DecidableEq, Repr

namespace TokenStream

/-- The stream that starts with the first of the tokens. -/
def ofTokens (tokens : List Located) : TokenStream :=
  ⟨tokens, 0, 0⟩

/-- The current token. -/
def current (stream : TokenStream) : Token :=
  match stream.rest with
  | [] => .eof
  | located :: _ => located.token

/-- The offset of the current token. -/
def offset (stream : TokenStream) : Nat :=
  match stream.rest with
  | [] => 0
  | located :: _ => located.offset

/-- Moves to the next token, if there is one. -/
def next (stream : TokenStream) : TokenStream :=
  match stream.rest with
  | _ :: second :: rest => { stream with rest := second :: rest, index := stream.index + 1 }
  | _ => stream

end TokenStream

/-- A parser: it takes a stream, and gives a result or an error, and the
stream where it stopped. -/
abbrev Parse (α : Type) := EStateM ParseError TokenStream α

namespace Parse

/-! ## Single tokens -/

/-- Fails since the current token is not what has to come. -/
def mismatch {α : Type} (expected : Expected) : Parse α := fun stream =>
  .error (.mismatch expected stream.index stream.offset stream.current) stream

/-- The current token. -/
def current : Parse Token := fun stream =>
  .ok stream.current stream

/-- Moves to the next token. -/
def skip : Parse Unit := fun stream =>
  .ok () stream.next

/-- Moves over the token if it is the current one, and tells whether it was. -/
def accept (token : Token) : Parse Bool := do
  if (← current) = token then
    skip
    return true
  else
    return false

/-- Fails unless the token is the current one; does not move. -/
def ensure (token : Token) : Parse Unit := do
  unless (← current) = token do mismatch (.token token)

/-- Moves over the token, which has to be the current one. -/
def require (token : Token) : Parse Unit := do
  ensure token
  skip

/-! ## Nesting -/

/-- Fails since no further group or bracket may be opened. The depth reached
is the limit. -/
def tooDeep {α : Type} : Parse α := fun stream =>
  .error (.tooDeep stream.depth stream.offset) stream

/-- Moves over the current token, which opens a group or a bracket. -/
def descend : Parse Unit := fun stream =>
  .ok () { stream.next with depth := stream.depth + 1 }

/-- Moves over the token that closes a group or a bracket. -/
def ascend (closing : Token) : Parse Unit := do
  require closing
  modify fun stream => { stream with depth := stream.depth - 1 }

/-- Opens a group or a bracket and parses its contents, which may be nested
one level less deep. `levels` is how many may still be opened. -/
def nested {α : Type} (contents : Nat → Parse α) : (levels : Nat) → Parse α
  | 0 => tooDeep
  | levels + 1 => do
    descend
    contents levels

/-! ## Choice and repetition -/

/-- Runs a parser. If it fails, its error is dropped and the stream is what
it was before. -/
def orNone {α : Type} (parser : Parse α) : Parse (Option α) := fun stream =>
  match parser stream with
  | .ok result after => .ok (some result) after
  | .error _ _ => .ok none stream

/-- The result of the first parser that succeeds. -/
def firstOf {α : Type} : List (Parse α) → Parse (Option α)
  | [] => return none
  | parser :: parsers => do
    match ← orNone parser with
    | some result => return some result
    | none => firstOf parsers

/-- The results of a step that is run until it gives none, `n` times at most. -/
def repeatAtMost {α : Type} (step : Parse (Option α)) : (n : Nat) → Parse (List α)
  | 0 => return []
  | n + 1 => do
    match ← step with
    | none => return []
    | some result => return result :: (← repeatAtMost step n)

/-- The results of a step that is run until it gives none. A step that gives
a result moves on, so there are no more results than tokens. -/
def repeated {α : Type} (step : Parse (Option α)) : Parse (List α) := fun stream =>
  repeatAtMost step stream.rest.length stream

end Parse

end ScimQuery
