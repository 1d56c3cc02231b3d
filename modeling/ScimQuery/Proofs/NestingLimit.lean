/-
ScimQuery.Proofs.NestingLimit — when looking ahead finds the nesting too deep.

A text exceeds a limit at the mark with which, for the first time, more groups
and brackets are open than the limit allows, provided that a filter may still
come of the tokens up to this mark (`Filter.ExceedsAt`). Looking ahead reports
the nesting for exactly these texts and at exactly this mark.

One half is read off the error, which is raised with no level left, at a mark
that fits. For the other half the text can have no other answer. A result or a
token that fits nowhere would have to come in front of the mark or behind it.
In front of it the tokens begin a filter, so nothing fits nowhere. Behind it
the mark would have been gone over, and nothing is gone over where the depth
exceeds the limit.

A larger limit changes an answer only if the nesting was too deep
(`Lookahead.extends_wholeFilter`).
-/
import ScimQuery.Proofs.Parsing.Limit
import ScimQuery.Proofs.ViablePrefix

namespace ScimQuery

open Token TokenStream Parse

variable {tokens : List Located} {limit i j depth offset : Nat} {m : TokenStream} {e : ParseError}

/-! ## 1. Where a limit is exceeded -/

/-- The token with this number opens more groups and brackets than the limit
allows, for the first time and in what may become a filter. -/
structure Filter.ExceedsAt (tokens : List Located) (limit i : Nat) : Prop where
  begins : Filter.Begins (firstTokens tokens (i + 1))
  opens : ∃ entry, tokens[i]? = some entry ∧ entry.token.isOpening
  exceeds : limit < unclosed (firstTokens tokens (i + 1))
  first : ∀ j ≤ i, unclosed (firstTokens tokens j) ≤ limit

namespace Filter.ExceedsAt

/-- There is one such token at most. -/
theorem unique (h : ExceedsAt tokens limit i) (h' : ExceedsAt tokens limit j) : i = j := by
  rcases Nat.lt_trichotomy i j with hlt | heq | hgt
  · exact absurd (h'.first (i + 1) hlt) (Nat.not_le.mpr h.exceeds)
  · exact heq
  · exact absurd (h.first (j + 1) hgt) (Nat.not_le.mpr h'.exceeds)

/-- No parser that keeps to the limit goes over it. -/
theorem index_le (h : ExceedsAt tokens limit i)
    (hreaches : (ofTokens tokens).Reaches limit (firstTokens tokens j) m) : j ≤ i := by
  by_contra hlt
  exact absurd (hreaches.unclosed_le (Nat.lt_of_not_le hlt)) (Nat.not_le.mpr h.exceeds)

end Filter.ExceedsAt

/-! ## 2. Looking ahead -/

namespace Lookahead

/-- The nesting is too deep where the limit is exceeded. -/
theorem exceedsAt_of_tooDeep (htokens : EndsInEof tokens)
    (h : wholeFilter limit (ofTokens tokens) = .error (.tooDeep depth offset) m) :
    depth = limit ∧ Filter.ExceedsAt tokens limit m.index ∧
      (tokens[m.index]?).map Located.offset = some offset := by
  obtain ⟨hm, ⟨hlevels, rfl, rfl⟩, hrow, hopens, rest, hrest⟩ := error_of_wholeFilter htokens h
  have hcurrent := hm.getElem?_eq
  have hle := hm.depth_le
  have hdepth : unclosed (firstTokens tokens m.index) = m.depth := hrow.depth_eq.symm
  refine ⟨by omega, ⟨?_, ⟨_, hcurrent, hopens⟩, ?_, fun j hj => hrow.unclosed_le hj⟩, ?_⟩
  · rw [firstTokens_succ hcurrent]
    refine Filter.begins_iff.mpr ⟨rest, ?_⟩
    rwa [List.append_assoc]
  · rw [firstTokens_succ hcurrent, unclosed, List.foldl_append, ← unclosed, hdepth,
      List.foldl_cons, List.foldl_nil, depthAfter_of_isOpening hopens]
    omega
  · rw [hcurrent]
    rfl

/-- A text that is a filter exceeds no limit that it is read within. -/
theorem not_exceedsAt_of_ok (htokens : EndsInEof tokens) {filter : Filter}
    (h : wholeFilter limit (ofTokens tokens) = .ok filter m) :
    ¬ Filter.ExceedsAt tokens limit i := by
  intro hexceeds
  obtain ⟨row, m', hrow, heof, hlast⟩ := reaches_of_wholeFilter (hasRoom_ofTokens htokens limit) h
  obtain ⟨-, rfl⟩ := hrow.firstTokens_eq htokens
  have hcurrent := (hrow.within (within_ofTokens htokens)).getElem?_eq
  obtain ⟨entry, hentry, hopens⟩ := hexceeds.opens
  rcases Nat.lt_or_eq_of_le (hexceeds.index_le hrow) with hlt | rfl
  · -- The token behind the end would have to be a part of the filter.
    have hbehind : m'.index + 1 < tokens.length :=
      Nat.lt_of_le_of_lt hlt (List.getElem?_eq_some_iff.mp hentry).1
    have hbegins := hexceeds.begins.shorten
      (prefix_firstTokens tokens (Nat.succ_le_succ (Nat.succ_le_of_lt hlt)))
    obtain ⟨rest, hrest⟩ := Filter.begins_iff.mp hbegins
    rw [firstTokens_succ (List.getElem?_eq_getElem hbehind), firstTokens_succ hcurrent, heof,
      List.append_assoc, List.append_assoc] at hrest
    cases hlast hrest
  · rw [hcurrent, Option.some.injEq] at hentry
    subst hentry
    rw [heof] at hopens
    cases hopens

/-- Nor does a limit get exceeded where a token fits nowhere. -/
theorem not_exceedsAt_of_mismatch (htokens : EndsInEof tokens) {expected : Expected}
    {index : Nat} {found : Token} (h : wholeFilter limit (ofTokens tokens) =
      .error (.mismatch expected index offset found) m) : ¬ Filter.ExceedsAt tokens limit i := by
  intro hexceeds
  obtain ⟨hm, -, hrow, -, hno⟩ := error_of_wholeFilter htokens h
  exact Filter.not_begins hm.getElem?_eq hno (Nat.lt_succ_of_le (hexceeds.index_le hrow))
    hexceeds.begins

/-- **The nesting is too deep where the limit is exceeded, and only there.** -/
theorem tooDeep_iff_exceedsAt (htokens : EndsInEof tokens) (depth offset : Nat) :
    (∃ m, wholeFilter limit (ofTokens tokens) = .error (.tooDeep depth offset) m) ↔
      depth = limit ∧ ∃ i, Filter.ExceedsAt tokens limit i ∧
        (tokens[i]?).map Located.offset = some offset := by
  constructor
  · rintro ⟨m, hm⟩
    obtain ⟨hdepth, hexceeds, hoffset⟩ := exceedsAt_of_tooDeep htokens hm
    exact ⟨hdepth, m.index, hexceeds, hoffset⟩
  · rintro ⟨rfl, i, hexceeds, hoffset⟩
    cases hfilter : wholeFilter depth (ofTokens tokens) with
    | ok filter m => exact absurd hexceeds (not_exceedsAt_of_ok htokens hfilter)
    | error e m =>
      cases e with
      | lexical error => exact (error_of_wholeFilter htokens hfilter).2.2.2.elim
      | noPath offset => exact (error_of_wholeFilter htokens hfilter).2.2.2.elim
      | mismatch expected index offset found =>
        exact absurd hexceeds (not_exceedsAt_of_mismatch htokens hfilter)
      | tooDeep depth' offset' =>
        obtain ⟨rfl, hexceeds', hoffset'⟩ := exceedsAt_of_tooDeep htokens hfilter
        rw [hexceeds.unique hexceeds', hoffset', Option.some.injEq] at hoffset
        exact ⟨m, by rw [hoffset]⟩

end Lookahead

/-! ## 3. Sessions -/

namespace ParseSession

variable {session : ParseSession}

/-- The session with another limit. -/
def withLimit (session : ParseSession) (limit : Nat) : ParseSession :=
  { session with settings := { session.settings with nestingLimit := limit } }

/-- With a larger limit a session answers alike, unless the nesting was too
deep. -/
theorem filter_withLimit (hstrategy : session.settings.strategy = .lookahead)
    (hlimit : session.settings.nestingLimit ≤ limit) :
    (∃ depth offset, session.filter.1 = .error (.tooDeep depth offset)) ∨
      (session.withLimit limit).filter.1 = session.filter.1 := by
  obtain ⟨depth, offset, m, herror⟩ | hwider :=
    Lookahead.extends_wholeFilter (s := ofTokens session.tokens) hlimit
  · exact .inl ⟨depth, offset, (filter_eq_error_iff hstrategy).mpr ⟨m, herror⟩⟩
  · have hstrategy' : (session.withLimit limit).settings.strategy = .lookahead := hstrategy
    refine .inr ?_
    cases hfilter : Lookahead.wholeFilter session.settings.nestingLimit
        (ofTokens session.tokens) with
    | ok filter m =>
      rw [(filter_eq_ok_iff hstrategy).mpr ⟨m, hfilter⟩,
        (filter_eq_ok_iff hstrategy').mpr ⟨m, hwider.trans hfilter⟩]
    | error e m =>
      rw [(filter_eq_error_iff hstrategy).mpr ⟨m, hfilter⟩,
        (filter_eq_error_iff hstrategy').mpr ⟨m, hwider.trans hfilter⟩]

/-- **Looking ahead finds the nesting too deep where the limit is exceeded, and
only there**, and says so with the limit and the offset of the mark. So a
filter that is nested deeper than the limit is not taken for a text that is no
filter. Every other answer stays what it is with every larger limit. -/
theorem filter_tooDeep_iff (session : ParseSession)
    (hstrategy : session.settings.strategy = .lookahead) (htokens : EndsInEof session.tokens) :
    (∀ depth offset, session.filter.1 = .error (.tooDeep depth offset) ↔
      depth = session.settings.nestingLimit ∧
        ∃ i, Filter.ExceedsAt session.tokens session.settings.nestingLimit i ∧
          (session.tokens[i]?).map Located.offset = some offset) ∧
    ∀ wider ≥ session.settings.nestingLimit,
      (∀ filter, (session.withLimit wider).filter.1 = .ok filter →
        session.settings.nestingLimit < filter.nesting →
        ∃ offset, session.filter.1 = .error (.tooDeep session.settings.nestingLimit offset)) ∧
      (∀ filter, session.filter.1 = .ok filter → (session.withLimit wider).filter.1 = .ok filter) ∧
      ∀ expected index offset found,
        session.filter.1 = .error (.mismatch expected index offset found) →
        (session.withLimit wider).filter.1 = .error (.mismatch expected index offset found) := by
  have hiff (depth offset : Nat) := (filter_eq_error_iff hstrategy).trans
    (Lookahead.tooDeep_iff_exceedsAt htokens depth offset)
  have hended : (ofTokens session.tokens).Ended := htokens
  refine ⟨hiff, fun wider hwider => ⟨fun filter hfilter hnesting => ?_, fun filter hfilter => ?_,
    fun expected index offset found herror => ?_⟩⟩
  · rcases filter_withLimit hstrategy hwider with ⟨depth, offset, htooDeep⟩ | heq
    · obtain ⟨rfl, -⟩ := (hiff depth offset).mp htooDeep
      exact ⟨offset, htooDeep⟩
    · -- Within the limit there is no filter that is nested as deep as this one.
      obtain ⟨m, hm⟩ := (filter_eq_ok_iff hstrategy).mp (heq ▸ hfilter)
      obtain ⟨-, -, -, hle⟩ := (Lookahead.wholeFilter_iff hended).mp ⟨m, hm⟩
      omega
  · rcases filter_withLimit hstrategy hwider with ⟨depth, offset, htooDeep⟩ | heq
    · rw [hfilter] at htooDeep
      cases htooDeep
    · rw [heq, hfilter]
  · rcases filter_withLimit hstrategy hwider with ⟨depth, offset, htooDeep⟩ | heq
    · rw [herror] at htooDeep
      cases htooDeep
    · rw [heq, herror]

/-- A session over `(a pr) and b[(c pr)]`, where one group or bracket may be
open at once. -/
def nestedSession : ParseSession :=
  let tokens : List Located := [⟨0, .openParen⟩, ⟨1, .attribute "a"⟩, ⟨2, .space⟩,
    ⟨3, .keyword .present⟩, ⟨5, .closeParen⟩, ⟨6, .space⟩, ⟨7, .keyword (.connective .and)⟩,
    ⟨10, .space⟩, ⟨11, .attribute "b"⟩, ⟨12, .openBracket⟩, ⟨13, .openParen⟩, ⟨14, .attribute "c"⟩,
    ⟨15, .space⟩, ⟨16, .keyword .present⟩, ⟨18, .closeParen⟩, ⟨19, .closeBracket⟩, ⟨20, .eof⟩]
  ⟨⟨.lookahead, 1⟩, tokens, .ofTokens tokens⟩

/-- The filter that the session has tokens of. -/
def nestedFilter : Filter :=
  .one (.and (.group false (.one (.one (.leaf (.test (.present ⟨none, "a", none⟩))))))
    (.one (.leaf (.values ⟨⟨none, "b", none⟩,
      .one (.one (.group false (.one (.one (.leaf (.present ⟨none, "c", none⟩))))))⟩))))

/-- The first group is closed again, and the second one is one too many in the
brackets. -/
theorem filter_tooDeep_iff_nested :
    nestedSession.filter.1 = .error (.tooDeep 1 13) ∧
      (∃ i, Filter.ExceedsAt nestedSession.tokens 1 i ∧
        (nestedSession.tokens[i]?).map Located.offset = some 13) ∧
      (nestedSession.withLimit 2).filter.1 = .ok nestedFilter ∧ nestedFilter.nesting = 2 ∧
      ((nestedSession.withLimit 2).withLimit 3).filter.1 = .ok nestedFilter := by
  obtain ⟨hiff, hwider⟩ := filter_tooDeep_iff nestedSession rfl rfl
  have htooDeep : nestedSession.filter.1 = .error (.tooDeep 1 13) := rfl
  have hfilter : (nestedSession.withLimit 2).filter.1 = .ok nestedFilter := rfl
  have hlarger := (filter_tooDeep_iff (nestedSession.withLimit 2) rfl rfl).2 3 (by decide)
  exact ⟨htooDeep, ((hiff 1 13).mp htooDeep).2, hfilter, rfl, hlarger.2.1 _ hfilter⟩

end ParseSession

end ScimQuery
