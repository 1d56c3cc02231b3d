/-
ScimQuery.Proofs.Acceptance — which texts are accepted, and with which trees.

A text is accepted with a tree if its tokens spell the tree and the tree is
nested within the limit (`Filter.ofText_eq_ok_iff`, `Path.ofText_eq_ok_iff`).
Neither the order of alternatives nor the look at the next token is left in
that, so the two strategies accept the same texts with the same trees, and a
text that does not consist of tokens fails in the lexer before a strategy is
chosen.
-/
import ScimQuery.Parsing
import ScimQuery.Proofs.Lexing
import ScimQuery.Proofs.Parsing.Lookahead
import ScimQuery.Proofs.Parsing.OrderedChoice

namespace ScimQuery

open TokenStream

/-! ## 1. The stream of a text -/

theorem TokenStream.ended_ofTokens_locate (tokens : List Token) :
    (ofTokens (Token.locate 0 tokens)).Ended := by
  rw [Ended, ← List.getLast?_map]
  simp [ofTokens]

/-- A stream over a row and the end has nothing but the row in front of the
end. -/
theorem TokenStream.whole_iff_of_rest {s : TokenStream} {offset : Nat} {row tokens : List Token}
    (hrest : s.rest = Token.locate offset row) (heof : ∀ token ∈ row, token ≠ .eof) :
    s.Whole tokens ↔ tokens = row := by
  induction row generalizing s offset tokens with
  | nil =>
    have hcurrent : s.current = .eof := by simp [current, hrest, Token.locate]
    constructor
    · intro h
      obtain ⟨m, hover, -⟩ := h
      cases tokens with
      | nil => rfl
      | cons token tokens =>
        obtain ⟨hcurrent', hne, -⟩ := over_cons.mp hover
        exact absurd (hcurrent'.symm.trans hcurrent) hne
    · rintro rfl
      exact ⟨s, rfl, hcurrent⟩
  | cons first row ih =>
    simp only [List.mem_cons, forall_eq_or_imp] at heof
    have hcurrent : s.current = first := by simp [current, hrest, Token.locate]
    have hnext : s.next.rest = Token.locate (offset + first.length) row := by
      unfold next
      rw [hrest]
      cases row <;> simp [Token.locate]
    constructor
    · intro h
      obtain ⟨m, hover, hend⟩ := h
      cases tokens with
      | nil =>
        rw [over_nil.mp hover, hcurrent] at hend
        exact absurd hend heof.1
      | cons token tokens =>
        obtain ⟨rfl, -, hover⟩ := over_cons.mp hover
        rw [(ih hnext heof.2).mp ⟨m, hover, hend⟩, hcurrent]
    · rintro rfl
      obtain ⟨m, hover, hend⟩ := (ih hnext heof.2).mpr rfl
      exact ⟨m, ⟨hcurrent, heof.1, hover⟩, hend⟩

/-! ## 2. Strategies -/

namespace Strategy

variable {s : TokenStream} {levels : Nat}

theorem wholeFilter_iff (strategy : Strategy) (hs : s.Ended) {filter : Filter} :
    (∃ s', strategy.wholeFilter levels s = .ok filter s') ↔
      ∃ tokens, s.Whole tokens ∧ Filter.Spells tokens filter ∧ filter.nesting ≤ levels := by
  cases strategy with
  | lookahead => exact Lookahead.wholeFilter_iff hs
  | orderedChoice => exact OrderedChoice.wholeFilter_iff hs

theorem wholePath_iff (strategy : Strategy) (hs : s.Ended) {path : Path} :
    (∃ s', strategy.wholePath levels s = .ok path s') ↔
      ∃ tokens, s.Whole tokens ∧ path.Spells tokens ∧ path.nesting ≤ levels := by
  cases strategy with
  | lookahead => exact Lookahead.wholePath_iff hs
  | orderedChoice => exact OrderedChoice.wholePath_iff hs

end Strategy

/-! ## 3. Whole texts -/

theorem ParseSession.run_eq_ok_iff {α : Type} {parser : Parse α} {session : ParseSession} {a : α} :
    (run parser session).1 = .ok a ↔ ∃ s', parser session.stream = .ok a s' := by
  unfold run
  cases parser session.stream <;> simp

theorem ParseSession.run_eq_error_iff {α : Type} {parser : Parse α} {session : ParseSession}
    {e : ParseError} :
    (run parser session).1 = .error e ↔ ∃ m, parser session.stream = .error e m := by
  unfold run
  cases parser session.stream <;> simp

/-- What stands in front of the end of a text is its readable row. -/
theorem exists_whole_iff {text : String} {located : List Located}
    (h : Token.ofText text = .ok located) {grammar : List Token → Prop} :
    (∃ tokens, (ofTokens located).Whole tokens ∧ grammar tokens) ↔
      ∃ tokens, Token.Readable tokens ∧ Token.textOf tokens = text ∧ grammar tokens := by
  obtain ⟨row, hreadable, htext, rfl⟩ := Token.ofText_eq_ok_iff.mp h
  have hwhole {tokens : List Token} :
      (ofTokens (Token.locate 0 row)).Whole tokens ↔ tokens = row :=
    whole_iff_of_rest rfl fun token htoken => (hreadable.forall_mem token htoken).1
  simp only [hwhole, exists_eq_left]
  constructor
  · exact fun hgrammar => ⟨row, hreadable, htext, hgrammar⟩
  · intro hx
    obtain ⟨tokens, hreadable', htext', hgrammar⟩ := hx
    rwa [hreadable.unique hreadable' (htext.trans htext'.symm)]

/-- A text that the lexer refuses is the text of no readable row. -/
theorem not_readable_of_error {text : String} {error : LexicalError}
    (h : Token.ofText text = .error error) {tokens : List Token}
    (hreadable : Token.Readable tokens) :
    Token.textOf tokens ≠ text := by
  intro htext
  rw [Token.ofText_eq_ok_iff.mpr ⟨tokens, hreadable, htext, rfl⟩] at h
  cases h

theorem Filter.ofText_of_error {text : String} {error : LexicalError}
    (h : Token.ofText text = .error error) (settings : ParseSettings) :
    Filter.ofText text settings = .error (.lexical error) := by
  simp [Filter.ofText, ParseSession.ofText, h]

theorem Path.ofText_of_error {text : String} {error : LexicalError}
    (h : Token.ofText text = .error error) (settings : ParseSettings) :
    Path.ofText text settings = .error (.lexical error) := by
  simp [Path.ofText, ParseSession.ofText, h]

/-- **The filter of a text** is what its tokens spell, within the limit. -/
theorem Filter.ofText_eq_ok_iff {text : String} {settings : ParseSettings} {filter : Filter} :
    Filter.ofText text settings = .ok filter ↔
      ∃ tokens, Token.Readable tokens ∧ Token.textOf tokens = text ∧
        Filter.Spells tokens filter ∧ filter.nesting ≤ settings.nestingLimit := by
  cases h : Token.ofText text with
  | error error =>
    rw [Filter.ofText_of_error h]
    simp only [reduceCtorEq, false_iff]
    intro h'
    obtain ⟨tokens, hreadable, htext, -⟩ := h'
    exact not_readable_of_error h hreadable htext
  | ok located =>
    obtain ⟨row, -, -, hrow⟩ := Token.ofText_eq_ok_iff.mp h
    have hs : (ofTokens located).Ended := hrow ▸ ended_ofTokens_locate row
    rw [← exists_whole_iff h, ← settings.strategy.wholeFilter_iff hs]
    simp only [Filter.ofText, ParseSession.ofText, h]
    exact ParseSession.run_eq_ok_iff

/-- **The path of a text** is what its tokens spell, within the limit. -/
theorem Path.ofText_eq_ok_iff {text : String} {settings : ParseSettings} {path : Path} :
    Path.ofText text settings = .ok path ↔
      ∃ tokens, Token.Readable tokens ∧ Token.textOf tokens = text ∧
        path.Spells tokens ∧ path.nesting ≤ settings.nestingLimit := by
  cases h : Token.ofText text with
  | error error =>
    rw [Path.ofText_of_error h]
    simp only [reduceCtorEq, false_iff]
    intro h'
    obtain ⟨tokens, hreadable, htext, -⟩ := h'
    exact not_readable_of_error h hreadable htext
  | ok located =>
    obtain ⟨row, -, -, hrow⟩ := Token.ofText_eq_ok_iff.mp h
    have hs : (ofTokens located).Ended := hrow ▸ ended_ofTokens_locate row
    rw [← exists_whole_iff h, ← settings.strategy.wholePath_iff hs]
    simp only [Path.ofText, ParseSession.ofText, h]
    exact ParseSession.run_eq_ok_iff

/-! ## 4. The strategies against each other -/

/-- **The strategies agree**: on every text and within every limit they accept
the same filters and the same paths, and both pass on what the lexer refuses. -/
theorem strategies_agree (text : String) (limit : Nat) :
    (∀ filter, Filter.ofText text ⟨.lookahead, limit⟩ = .ok filter ↔
      Filter.ofText text ⟨.orderedChoice, limit⟩ = .ok filter) ∧
    (∀ path, Path.ofText text ⟨.lookahead, limit⟩ = .ok path ↔
      Path.ofText text ⟨.orderedChoice, limit⟩ = .ok path) ∧
    ∀ error, Token.ofText text = .error error → ∀ strategy,
      Filter.ofText text ⟨strategy, limit⟩ = .error (.lexical error) ∧
        Path.ofText text ⟨strategy, limit⟩ = .error (.lexical error) := by
  refine ⟨fun filter => ?_, fun path => ?_, fun error herror strategy => ?_⟩
  · rw [Filter.ofText_eq_ok_iff, Filter.ofText_eq_ok_iff]
  · rw [Path.ofText_eq_ok_iff, Path.ofText_eq_ok_iff]
  · exact ⟨Filter.ofText_of_error herror _, Path.ofText_of_error herror _⟩

/-- One text that both strategies accept, and one that the lexer refuses. -/
theorem strategies_agree_present :
    Filter.ofText "a pr" ⟨.orderedChoice, 0⟩ =
      .ok (.one (.one (.leaf (.test (.present ⟨none, "a", none⟩))))) ∧
    Filter.ofText "?" ⟨.orderedChoice, 0⟩ = .error (.lexical ⟨.strayCharacter '?', 0⟩) := by
  have hreadable : Token.Readable [.attribute "a", .space, .keyword .present] :=
    ⟨by simp, rfl, by simp, rfl, by simp, rfl, trivial⟩
  have htext : Token.textOf [.attribute "a", .space, .keyword .present] = "a pr" := by decide
  refine ⟨((strategies_agree "a pr" 0).1 _).mp ?_, ((strategies_agree "?" 0).2.2 _ rfl _).1⟩
  exact Filter.ofText_eq_ok_iff.mpr ⟨_, hreadable, htext, .one (.one (.leaf rfl)), Nat.le_refl 0⟩

end ScimQuery
