/-
ScimQuery.Proofs.PathErrors — the errors that a text that is no path gets.

Both strategies try the shapes of a path one after the other, and drop the
error of each. Looking ahead tries them with the end of the text behind them.
So nothing is left of what went wrong, and all that it says is that no shape
fits, at the first token.

Ordered choice takes the first shape that can be parsed and looks for the end
behind it. Every shape starts with an attribute path, and an attribute path is
the last of the shapes. So none of them can be parsed if and only if there is
no attribute path at the first token, and otherwise the end is missed behind
the one that was taken.

Either way an error about the nesting is dropped with all the others.
-/
import ScimQuery.Proofs.ErrorOffsets
import ScimQuery.Proofs.Parsing.Reach
import ScimQuery.Proofs.Sessions

namespace ScimQuery

open TokenStream Parse

variable {α : Type} {s m : TokenStream} {e : ParseError} {levels : Nat} {path : Path}
  {tokens located : List Located} {text : String}

/-! ## 1. Choices -/

/-- A choice takes the first of its parsers that succeeds. -/
theorem Parse.firstOf_eq_some_iff {parsers : List (Parse α)} {a : α} :
    firstOf parsers s = .ok (some a) m ↔ ∃ front parser back,
      parsers = front ++ parser :: back ∧
        (∀ earlier ∈ front, ∀ b m', earlier s ≠ .ok b m') ∧ parser s = .ok a m := by
  induction parsers with
  | nil => simp
  | cons parser parsers ih =>
    rw [firstOf_cons_eq_some_iff, ih]
    constructor
    · rintro (ha | ⟨hfails, front, later, back, rfl, hfront, ha⟩)
      · exact ⟨[], parser, parsers, rfl, by simp, ha⟩
      · refine ⟨parser :: front, later, back, rfl, ?_, ha⟩
        simp only [List.mem_cons, forall_eq_or_imp]
        exact ⟨hfails, hfront⟩
    · rintro ⟨front, later, back, hparsers, hfront, ha⟩
      cases front with
      | nil =>
        obtain ⟨rfl, rfl⟩ := List.cons_eq_cons.mp hparsers
        exact .inl ha
      | cons first front =>
        obtain ⟨rfl, rfl⟩ := List.cons_eq_cons.mp hparsers
        simp only [List.mem_cons, forall_eq_or_imp] at hfront
        exact .inr ⟨hfront.1, front, later, back, rfl, hfront.2, ha⟩

/-! ## 2. Paths -/

/-- Looking ahead has one error only. -/
theorem Lookahead.wholePath_eq_error (h : wholePath levels s = .error e m) :
    e = .noPath s.offset := by
  rcases firstOf_bind_eq_error_iff.mp h with ⟨-, herror⟩ | ⟨path, m', -, herror⟩
  · rw [EStateM.Result.error.injEq] at herror
    exact herror.1.symm
  · cases herror

namespace OrderedChoice

/-- The path is what the first of the shapes that can be parsed gives. -/
def TakesShape (levels : Nat) (s : TokenStream) (path : Path) (m : TokenStream) : Prop :=
  ∃ front shape back, paths levels = front ++ shape :: back ∧
    (∀ earlier ∈ front, ∀ p m', earlier s ≠ .ok p m') ∧ shape s = .ok path m

/-- Every shape of a path starts with an attribute path, and a mere attribute
path is one. -/
theorem exists_firstOf_paths_iff :
    (∃ path m, firstOf (paths levels) s = .ok (some path) m) ↔
      ∃ a m, attributePath s = .ok a m := by
  constructor
  · rintro ⟨path, m, h⟩
    rcases firstOf_paths_cases h with hvalues | ⟨test, htest, -⟩ | ⟨a, ha, -⟩
    · obtain ⟨a, m', ha, -⟩ := behindPath_of_valuesAndSub hvalues
      exact ⟨a, m', ha⟩
    · obtain ⟨a, m', ha, -⟩ := behindPath_of_attributeTest htest
      exact ⟨a, m', ha⟩
    · exact ⟨a, m, ha⟩
  · rintro ⟨a, m, ha⟩
    rcases firstOf_eq_none_or_some (paths levels) s with hnone | hsome
    · have hattribute : (Path.attribute <$> attributePath) s = .ok (.attribute a) m :=
        map_eq_ok_iff.mpr ⟨a, ha, rfl⟩
      exact absurd hattribute ((firstOf_eq_none_iff.mp hnone).2 _ (by simp [paths]) _ _)
    · exact hsome

/-- What is taken for a path has been gone over, and its tokens spell the
path. -/
theorem spells_of_firstOf_paths (hs : s.Ended) (h : firstOf (paths levels) s = .ok (some path) m) :
    ∃ row, s.Over row m ∧ path.Spells row := by
  rcases firstOf_paths_cases h with hvalues | ⟨test, htest, rfl⟩ | ⟨a, ha, rfl⟩
  · obtain ⟨stops, hstops, hcontents⟩ := exists_encloses_valueFilter levels
    obtain ⟨v, m₁, hv, hsub⟩ := bind_eq_ok_iff.mp hvalues
    obtain ⟨sub, m₂, hsub, hpath⟩ := bind_eq_ok_iff.mp hsub
    obtain ⟨rfl, rfl⟩ := pure_eq_ok_iff.mp hpath
    obtain ⟨row, hrow, hspells⟩ := (parses_valuePath hcontents hstops hs).mp hv
    exact ⟨_, over_append.mpr ⟨m₁, hrow, (subAttribute_eq_ok_iff.mp hsub).1⟩, row,
      (valuesSpell_filterBelow_iff.mp hspells).1, rfl⟩
  · exact (parses_attributeTest hs).mp htest
  · exact ⟨a.tokens, (attributePath_eq_ok_iff.mp ha).1, rfl⟩

/-- No shape can be parsed, or the end is missed behind the first that can. -/
theorem wholePath_eq_error (h : wholePath levels s = .error e m) :
    firstOf (paths levels) s = .ok none s ∧ e = .noPath s.offset ∨
      ∃ path m', firstOf (paths levels) s = .ok (some path) m' ∧
        e = .mismatch (.token .eof) m'.index m'.offset m'.current := by
  rcases firstOf_bind_eq_error_iff.mp h with ⟨hnone, herror⟩ | ⟨path, m', hsome, herror⟩
  · rw [EStateM.Result.error.injEq] at herror
    exact .inl ⟨hnone, herror.1.symm⟩
  · refine .inr ⟨path, m', hsome, ?_⟩
    rcases bind_eq_error_iff.mp herror with herror | ⟨_, _, -, herror⟩
    · exact (ensure_eq_error_iff.mp (require_eq_error_iff.mp herror)).2.1
    · cases herror

end OrderedChoice

/-! ## 3. Texts -/

/-- The first token of a text is at its start. -/
theorem Token.offset_ofTokens (h : Token.ofText text = .ok located) :
    (ofTokens located).offset = 0 := by
  obtain ⟨row, -, -, rfl⟩ := Token.ofText_eq_ok_iff.mp h
  cases row <;> rfl

theorem Path.ofText_eq_error_iff (h : Token.ofText text = .ok located) (settings : ParseSettings) :
    Path.ofText text settings = .error e ↔ ∃ m,
      settings.strategy.wholePath settings.nestingLimit (ofTokens located) = .error e m := by
  simp only [Path.ofText, ParseSession.ofText, h]
  exact ParseSession.run_eq_error_iff

/-- Ordered choice finds no shape at the start, or misses the end behind the
first that it finds. -/
theorem Path.ofText_orderedChoice_error (h : Token.ofText text = .ok located) {limit : Nat}
    (he : Path.ofText text ⟨.orderedChoice, limit⟩ = .error e) :
    firstOf (OrderedChoice.paths limit) (ofTokens located) = .ok none (ofTokens located) ∧
        e = .noPath 0 ∨
      ∃ path m offset found, OrderedChoice.TakesShape limit (ofTokens located) path m ∧
        path.Spells (firstTokens located m.index) ∧ located[m.index]? = some ⟨offset, found⟩ ∧
        e = .mismatch (.token .eof) m.index offset found := by
  have htokens := Token.endsInEof_of_ofText h
  have hended : (ofTokens located).Ended := htokens
  obtain ⟨m, hm⟩ := (ofText_eq_error_iff h _).mp he
  rcases OrderedChoice.wholePath_eq_error hm with ⟨hnone, rfl⟩ | ⟨path, m', hsome, rfl⟩
  · exact .inl ⟨hnone, by rw [Token.offset_ofTokens h]⟩
  · obtain ⟨row, hover, hspells⟩ := OrderedChoice.spells_of_firstOf_paths hended hsome
    obtain ⟨-, rfl⟩ := hover.firstTokens_eq htokens
    have hm' : m'.Within located 0 := (within_ofTokens htokens).over hover
    exact .inr ⟨path, m', _, _, firstOf_eq_some_iff.mp hsome, hspells, hm'.getElem?_eq, rfl⟩

/-- **The errors of a text that is no path.** Looking ahead says that no shape
fits, at the start of the text. Ordered choice says the same if there is no
attribute path at the start, and otherwise that the end of the text is missing
behind the first shape that can be parsed there. Neither of them says that the
nesting is too deep. -/
theorem Path.ofText_errors (h : Token.ofText text = .ok located) (limit : Nat) :
    (∀ e, Path.ofText text ⟨.lookahead, limit⟩ = .error e → e = .noPath 0) ∧
    (∀ e, Path.ofText text ⟨.orderedChoice, limit⟩ = .error e →
      (e = .noPath 0 ↔ ∀ a m, attributePath (ofTokens located) ≠ .ok a m) ∧
      ((∃ a m, attributePath (ofTokens located) = .ok a m) →
        ∃ path m offset found, OrderedChoice.TakesShape limit (ofTokens located) path m ∧
          path.Spells (firstTokens located m.index) ∧ located[m.index]? = some ⟨offset, found⟩ ∧
          e = .mismatch (.token .eof) m.index offset found)) ∧
    ∀ strategy depth offset,
      Path.ofText text ⟨strategy, limit⟩ ≠ .error (.tooDeep depth offset) := by
  have hlookahead (e : ParseError) (he : Path.ofText text ⟨.lookahead, limit⟩ = .error e) :
      e = .noPath 0 := by
    obtain ⟨m, hm⟩ := (ofText_eq_error_iff h _).mp he
    exact Token.offset_ofTokens h ▸ Lookahead.wholePath_eq_error hm
  refine ⟨hlookahead, fun e he => ?_, fun strategy depth offset he => ?_⟩
  · rcases ofText_orderedChoice_error h he with ⟨hnone, rfl⟩ | htaken
    · have hno (a : AttributePath) (m : TokenStream) :
          attributePath (ofTokens located) ≠ .ok a m := by
        intro ha
        obtain ⟨path, m', hsome⟩ := OrderedChoice.exists_firstOf_paths_iff.mpr ⟨a, m, ha⟩
        rw [hnone] at hsome
        cases hsome
      exact ⟨iff_of_true rfl hno, fun ⟨a, m, ha⟩ => absurd ha (hno a m)⟩
    · obtain ⟨path, m, offset, found, hshape, -, -, rfl⟩ := id htaken
      obtain ⟨a, m', ha⟩ :=
        OrderedChoice.exists_firstOf_paths_iff.mp ⟨path, m, firstOf_eq_some_iff.mpr hshape⟩
      exact ⟨iff_of_false nofun fun hno => hno a m' ha, fun _ => htaken⟩
  · cases strategy with
    | lookahead => cases hlookahead _ he
    | orderedChoice =>
      rcases ofText_orderedChoice_error h he with ⟨-, he⟩ | ⟨path, m, offset, found, -, -, -, he⟩
      · cases he
      · cases he

/-- The tokens of `a[(b pr)]`. -/
def bracketTokens : List Located :=
  [⟨0, .attribute "a"⟩, ⟨1, .openBracket⟩, ⟨2, .openParen⟩, ⟨3, .attribute "b"⟩, ⟨4, .space⟩,
    ⟨5, .keyword .present⟩, ⟨7, .closeParen⟩, ⟨8, .closeBracket⟩, ⟨9, .eof⟩]

/-- Where one group or bracket may be open at once, the brackets are no shape.
Ordered choice takes the attribute path in front of them. -/
theorem Path.ofText_errors_brackets :
    Token.ofText "a[(b pr)]" = .ok bracketTokens ∧
    (∀ e, Path.ofText "a[(b pr)]" ⟨.lookahead, 1⟩ = .error e → e = .noPath 0) ∧
    Path.ofText "a[(b pr)]" ⟨.orderedChoice, 1⟩ =
      .error (.mismatch (.token .eof) 1 1 .openBracket) ∧
    ∃ path m, OrderedChoice.TakesShape 1 (ofTokens bracketTokens) path m ∧
      path.Spells (firstTokens bracketTokens m.index) ∧ m.index = 1 := by
  have htokens : Token.ofText "a[(b pr)]" = .ok bracketTokens := by decide
  have herror : Path.ofText "a[(b pr)]" ⟨.orderedChoice, 1⟩ =
      .error (.mismatch (.token .eof) 1 1 .openBracket) := by
    rw [Path.ofText, ParseSession.ofText, htokens]
    rfl
  obtain ⟨hlookahead, hchoice, -⟩ := Path.ofText_errors htokens 1
  obtain ⟨path, m, offset, found, hshape, hspells, -, heq⟩ :=
    (hchoice _ herror).2 ⟨⟨none, "a", none⟩, ⟨bracketTokens.drop 1, 1, 0⟩, rfl⟩
  rw [ParseError.mismatch.injEq] at heq
  exact ⟨htokens, hlookahead, herror, path, m, hshape, hspells, heq.2.1.symm⟩

end ScimQuery
