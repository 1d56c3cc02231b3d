/-
ScimQuery.Proofs.Sessions — a session answers every request as if it were the
first.

A request that fails leaves the stream wherever the error struck, with groups
and brackets open around it. The next request starts at the first token again,
and what it starts with is what a new session over the text would start with,
provided that neither the tokens nor the settings have changed in between.
`IsOver` is what holds of a session after any requests at all: it has the
tokens of its text and its settings, and its stream stands on one of the
tokens, within the limit. One answer keeps it (`IsOver.answer`), and the
answers to a row of requests follow by induction on the row.
-/
import ScimQuery.Proofs.Acceptance
import ScimQuery.Proofs.Parsing.Place

namespace ScimQuery

open TokenStream Parse

/-! ## 1. Whole texts from a place -/

section Whole

variable {I : Nat → TokenStream → Prop} {limit n : Nat} (strategy : Strategy)
  (hI : Invariant limit I)

include hI

theorem Strategy.keeps_wholeFilter (hn : n ≤ limit) : Keeps I n n (strategy.wholeFilter n) := by
  cases strategy with
  | lookahead => exact Lookahead.keeps_wholeFilter hI hn
  | orderedChoice => exact OrderedChoice.keeps_wholeFilter hI hn

theorem Strategy.keeps_wholePath (hn : n ≤ limit) : Keeps I n n (strategy.wholePath n) := by
  cases strategy with
  | lookahead => exact Lookahead.keeps_wholePath hI hn
  | orderedChoice => exact OrderedChoice.keeps_wholePath hI hn

end Whole

/-- The tokens of a text end with its end. -/
theorem Token.endsInEof_of_ofText {text : String} {tokens : List Located}
    (h : Token.ofText text = .ok tokens) : EndsInEof tokens := by
  obtain ⟨row, -, -, rfl⟩ := Token.ofText_eq_ok_iff.mp h
  exact ended_ofTokens_locate row

namespace ParseSession

/-! ## 2. Requests -/

/-- What a session can be asked for. -/
inductive Request where
  | filter
  | path
  deriving DecidableEq, Repr

/-- What it answers. -/
inductive Answer where
  | filter (result : Except ParseError Filter)
  | path (result : Except ParseError Path)

/-- The answer to a request, and the session behind it. -/
def answer (session : ParseSession) : Request → Answer × ParseSession
  | .filter => (.filter session.filter.1, session.filter.2)
  | .path => (.path session.path.1, session.path.2)

/-- The answers to a row of requests, and the session behind them. -/
def answers (session : ParseSession) : List Request → List Answer × ParseSession
  | [] => ([], session)
  | request :: requests =>
    let behind := (session.answer request).2.answers requests
    ((session.answer request).1 :: behind.1, behind.2)

/-- The answer of a session that is built for the request alone. -/
def freshAnswer (text : String) (settings : ParseSettings) : Request → Answer
  | .filter => .filter (Filter.ofText text settings)
  | .path => .path (Path.ofText text settings)

/-! ## 3. Sessions over a text -/

/-- The session is one over the text with the settings, wherever in the text it
stands. -/
structure IsOver (text : String) (settings : ParseSettings) (session : ParseSession) : Prop where
  settings_eq : session.settings = settings
  ofText_eq : Token.ofText text = .ok session.tokens
  within : session.stream.Within session.tokens settings.nestingLimit

variable {text : String} {settings : ParseSettings} {session : ParseSession}

/-- A new session is one over its text. -/
theorem isOver_of_ofText (h : ofText text settings = .ok session) :
    IsOver text settings session := by
  unfold ofText at h
  cases htokens : Token.ofText text with
  | error error => simp [htokens] at h
  | ok tokens =>
    simp only [htokens, Except.ok.injEq] at h
    subst h
    exact ⟨rfl, htokens, within_ofTokens (Token.endsInEof_of_ofText htokens)⟩

/-- Running a parser that keeps to the tokens leaves the session over its
text. -/
theorem IsOver.run {α : Type} {parser : Parse α} (h : IsOver text settings session)
    (hparser : Keeps (fun levels s => s.Within session.tokens settings.nestingLimit ∧
      s.depth + levels = settings.nestingLimit) settings.nestingLimit settings.nestingLimit
      parser) :
    IsOver text settings (run parser session.rewound).2 := by
  have hstart : (ofTokens session.tokens).Within session.tokens settings.nestingLimit :=
    within_ofTokens (Token.endsInEof_of_ofText h.ofText_eq)
  have hdepth : (ofTokens session.tokens).depth + settings.nestingLimit = settings.nestingLimit :=
    Nat.zero_add _
  unfold ParseSession.run
  cases hresult : parser session.rewound.stream with
  | ok a m => exact ⟨h.settings_eq, h.ofText_eq, (hparser.ok ⟨hstart, hdepth⟩ hresult).1⟩
  | error e m =>
    obtain ⟨levels, hm, -⟩ := hparser.error ⟨hstart, hdepth⟩ hresult
    exact ⟨h.settings_eq, h.ofText_eq, hm.1⟩

/-- A request is answered as by a new session. -/
theorem IsOver.answer_eq (h : IsOver text settings session) (request : Request) :
    (session.answer request).1 = freshAnswer text settings request := by
  have hnew : ofText text settings = .ok session.rewound := by
    simp only [ofText, h.ofText_eq, rewound, ← h.settings_eq]
  cases request with
  | filter => simp only [freshAnswer, Filter.ofText, hnew]; rfl
  | path => simp only [freshAnswer, Path.ofText, hnew]; rfl

/-- Nor does a request take the session off its text. -/
theorem IsOver.answer (h : IsOver text settings session) (request : Request) :
    IsOver text settings (session.answer request).2 := by
  have hI := invariant_within session.tokens settings.nestingLimit
  cases request with
  | filter =>
    refine h.run ?_
    rw [h.settings_eq]
    exact settings.strategy.keeps_wholeFilter hI (Nat.le_refl _)
  | path =>
    refine h.run ?_
    rw [h.settings_eq]
    exact settings.strategy.keeps_wholePath hI (Nat.le_refl _)

/-- **A session is as good as new**: whatever it has been asked for and has
answered, it answers each request as a new session over the text does, and it
keeps its tokens, its settings and a place on one of the tokens. -/
theorem answers_eq_fresh (h : ofText text settings = .ok session) (requests : List Request) :
    (session.answers requests).1 = requests.map (freshAnswer text settings) ∧
      IsOver text settings (session.answers requests).2 := by
  have hover := isOver_of_ofText h
  clear h
  induction requests generalizing session with
  | nil => exact ⟨rfl, hover⟩
  | cons request requests ih =>
    obtain ⟨hanswers, hbehind⟩ := ih (hover.answer request)
    refine ⟨?_, hbehind⟩
    show (session.answer request).1 :: ((session.answer request).2.answers requests).1 = _
    rw [hover.answer_eq request, hanswers, List.map_cons]

/-- A session over `((a pr))` that may open one group. -/
def tooDeepSession : ParseSession :=
  let tokens : List Located := [⟨0, .openParen⟩, ⟨1, .openParen⟩, ⟨2, .attribute "a"⟩, ⟨3, .space⟩,
    ⟨4, .keyword .present⟩, ⟨6, .closeParen⟩, ⟨7, .closeParen⟩, ⟨8, .eof⟩]
  ⟨⟨.orderedChoice, 1⟩, tokens, .ofTokens tokens⟩

/-- The first request stops in front of the second group, one level deep, and
the request behind it finds the session at the first token again. -/
theorem answers_eq_fresh_tooDeep :
    ofText "((a pr))" ⟨.orderedChoice, 1⟩ = .ok tooDeepSession ∧
      tooDeepSession.filter.2.stream = ⟨tooDeepSession.tokens.drop 1, 1, 1⟩ ∧
      (tooDeepSession.answers [.filter, .path, .filter]).1 =
        [.filter (.error (.tooDeep 1 1)), .path (.error (.noPath 0)),
          .filter (.error (.tooDeep 1 1))] := by
  have htokens : Token.ofText "((a pr))" = .ok tooDeepSession.tokens := by decide
  have hsession : ofText "((a pr))" ⟨.orderedChoice, 1⟩ = .ok tooDeepSession := by
    rw [ofText, htokens]
    rfl
  have hfilter : Filter.ofText "((a pr))" ⟨.orderedChoice, 1⟩ = .error (.tooDeep 1 1) := by
    rw [Filter.ofText, hsession]
    rfl
  have hpath : Path.ofText "((a pr))" ⟨.orderedChoice, 1⟩ = .error (.noPath 0) := by
    rw [Path.ofText, hsession]
    rfl
  refine ⟨hsession, rfl, ?_⟩
  rw [(answers_eq_fresh hsession _).1, List.map_cons, List.map_cons, List.map_cons, List.map_nil]
  simp only [freshAnswer, hfilter, hpath]

end ParseSession

end ScimQuery
