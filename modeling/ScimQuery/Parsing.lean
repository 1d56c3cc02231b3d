/-
ScimQuery.Parsing — filters and paths from text.

`Filter.ofText` and `Path.ofText` read a whole text. The settings say by
which strategy, and how deep groups and brackets may be nested. A
`ParseSession` holds the tokens of one text and can be asked for a filter
and for a path as often as one likes: every request starts at the first
token, whatever the one before has left behind.
-/
import ScimQuery.Parsing.Lookahead
import ScimQuery.Parsing.OrderedChoice
import ScimQuery.Token.Reader

namespace ScimQuery

/-- The two ways of parsing. Their trees agree, their errors need not. -/
inductive Strategy where
  /-- The next token decides. -/
  | lookahead
  /-- Alternatives are tried in order. -/
  | orderedChoice
  deriving DecidableEq, Repr

/-- The strategy, and how many groups and brackets may be open at once. -/
structure ParseSettings where
  strategy : Strategy := .lookahead
  nestingLimit : Nat := 64
  deriving DecidableEq, Repr

/-- The parser of whole filters, of which `levels` groups and brackets may be
open at once. -/
def Strategy.wholeFilter (strategy : Strategy) (levels : Nat) : Parse Filter :=
  match strategy with
  | .lookahead => Lookahead.wholeFilter levels
  | .orderedChoice => OrderedChoice.wholeFilter levels

/-- The parser of whole paths, of which `levels` groups and brackets may be
open at once. -/
def Strategy.wholePath (strategy : Strategy) (levels : Nat) : Parse Path :=
  match strategy with
  | .lookahead => Lookahead.wholePath levels
  | .orderedChoice => OrderedChoice.wholePath levels

/-! ## Sessions -/

/-- The tokens of a text, the settings, and the stream that the last request
has left behind. -/
structure ParseSession where
  settings : ParseSettings
  tokens : List Located
  stream : TokenStream
  deriving DecidableEq, Repr

namespace ParseSession

/-- A session over a text. -/
def ofText (text : String) (settings : ParseSettings) : Except ParseError ParseSession :=
  match Token.ofText text with
  | .ok tokens => .ok ⟨settings, tokens, .ofTokens tokens⟩
  | .error error => .error (.lexical error)

/-- The session back at its first token, with nothing open. -/
def rewound (session : ParseSession) : ParseSession :=
  { session with stream := .ofTokens session.tokens }

/-- Runs a parser from where the session is. -/
def run {α : Type} (parser : Parse α) (session : ParseSession) :
    Except ParseError α × ParseSession :=
  match parser session.stream with
  | .ok result stream => (.ok result, { session with stream })
  | .error error stream => (.error error, { session with stream })

/-- Reads the whole text as a filter. -/
def filter (session : ParseSession) : Except ParseError Filter × ParseSession :=
  run (session.settings.strategy.wholeFilter session.settings.nestingLimit) session.rewound

/-- Reads the whole text as a path. -/
def path (session : ParseSession) : Except ParseError Path × ParseSession :=
  run (session.settings.strategy.wholePath session.settings.nestingLimit) session.rewound

end ParseSession

/-! ## Whole texts -/

/-- The filter that a text is. -/
def Filter.ofText (text : String) (settings : ParseSettings := {}) :
    Except ParseError Filter :=
  match ParseSession.ofText text settings with
  | .ok session => session.filter.1
  | .error error => .error error

/-- The path that a text is. -/
def Path.ofText (text : String) (settings : ParseSettings := {}) : Except ParseError Path :=
  match ParseSession.ofText text settings with
  | .ok session => session.path.1
  | .error error => .error error

end ScimQuery
