/-
ScimQuery.Proofs.ViablePrefix — looking ahead names the first token at which
no filter is possible any more.

Some tokens begin a filter if the tokens of a filter and the end of the text
may come of them (`Filter.Begins`). Every front of a text that begins a filter
begins one as well, so there is a first token with which a text that is no
filter goes wrong. Looking ahead has not noticed it before that token, since
what it has gone over begins a filter, and it does not go beyond, since with
the token at which it stops there is none to be had
(`Lookahead.blames_wholeFilter`).

Nesting has no part in this. A text may begin a filter that is nested deeper
than is allowed, and that is another error.
-/
import ScimQuery.Proofs.ErrorOffsets
import ScimQuery.Proofs.Parsing.Commitment

namespace ScimQuery

open Language TokenStream Parse

variable {tokens : List Located} {limit n index offset : Nat} {row front : List Token}
  {m : TokenStream} {e : ParseError}

/-! ## 1. What begins a filter -/

/-- The tokens can be completed to a filter and the end of the text, nested
however deep. -/
def Filter.Begins (row : List Token) : Prop :=
  ∃ tokens filter, Filter.Spells tokens filter ∧ row <+: tokens ++ [.eof]

namespace Filter

theorem begins_iff : Begins row ↔ ∃ rest, row ++ rest ∈ Lookahead.sentences := by
  simp only [Lookahead.sentences, mem_mul, mem_ofToken, mem_spelled]
  constructor
  · rintro ⟨tokens, filter, hspells, rest, hrest⟩
    exact ⟨rest, tokens, ⟨filter, hspells⟩, _, rfl, hrest.symm⟩
  · rintro ⟨rest, tokens, ⟨filter, hspells⟩, _, rfl, happend⟩
    exact ⟨tokens, filter, hspells, rest, happend.symm⟩

theorem Begins.shorten (h : Begins row) (hfront : front <+: row) : Begins front := by
  obtain ⟨tokens, filter, hspells, hrow⟩ := h
  exact ⟨tokens, filter, hspells, hfront.trans hrow⟩

/-- Nothing behind a token that fits nowhere makes up for it. -/
theorem not_begins {entry : Located} (hentry : tokens[index]? = some entry)
    (h : ∀ rest, firstTokens tokens index ++ entry.token :: rest ∉ Lookahead.sentences)
    (hn : index < n) : ¬ Begins (firstTokens tokens n) := by
  intro hbegins
  obtain ⟨rest, hrest⟩ := begins_iff.mp (hbegins.shorten (prefix_firstTokens tokens hn))
  rw [firstTokens_succ hentry, List.append_assoc] at hrest
  exact h rest hrest

end Filter

/-! ## 2. Where looking ahead stops -/

namespace Lookahead

theorem hasRoom_ofTokens (htokens : EndsInEof tokens) (limit : Nat) :
    (ofTokens tokens).HasRoom limit limit :=
  ⟨htokens, Nat.le_of_eq (Nat.zero_add limit)⟩

/-- The error is raised at one of the tokens, and blames it. What is in front
of that token has been gone over. -/
theorem error_of_wholeFilter (htokens : EndsInEof tokens)
    (h : wholeFilter limit (ofTokens tokens) = .error e m) :
    m.Within tokens limit ∧ e.RaisedAt (limit - m.depth) m ∧
      (ofTokens tokens).Reaches limit (firstTokens tokens m.index) m ∧
      e.Blames sentences (firstTokens tokens m.index) m.current := by
  have hkeeps := keeps_wholeFilter (invariant_within tokens limit) (Nat.le_refl limit)
  obtain ⟨levels, ⟨hm, hdepth⟩, hraised⟩ :=
    hkeeps.error ⟨within_ofTokens htokens, Nat.zero_add limit⟩ h
  obtain ⟨row, hrow, hblames⟩ := blames_wholeFilter (hasRoom_ofTokens htokens limit) h
  obtain ⟨-, rfl⟩ := hrow.firstTokens_eq htokens
  obtain rfl : levels = limit - m.depth := by omega
  exact ⟨hm, hraised, hrow, hblames⟩

end Lookahead

/-! ## 3. Sessions -/

namespace ParseSession

variable {session : ParseSession}

/-- **The error of looking ahead is at the first token with which no filter is
possible any more**: the tokens in front of it begin a filter, and with it they
begin none. It is reported as what it is and with its offset. -/
theorem filter_begins_iff {expected : Expected} {found : Token}
    (hstrategy : session.settings.strategy = .lookahead) (htokens : EndsInEof session.tokens)
    (h : session.filter.1 = .error (.mismatch expected index offset found)) :
    (∀ n, Filter.Begins (firstTokens session.tokens n) ↔ n ≤ index) ∧
      session.tokens[index]? = some ⟨offset, found⟩ := by
  obtain ⟨m, hm⟩ := (filter_eq_error_iff hstrategy).mp h
  obtain ⟨hwithin, ⟨rfl, rfl, rfl⟩, -, hbegins, hno⟩ := Lookahead.error_of_wholeFilter htokens hm
  have hcurrent := hwithin.getElem?_eq
  refine ⟨fun n => ⟨fun hn => ?_, fun hn => ?_⟩, hcurrent⟩
  · by_contra hlt
    exact Filter.not_begins hcurrent hno (Nat.lt_of_not_le hlt) hn
  · exact (Filter.begins_iff.mpr hbegins).shorten (prefix_firstTokens session.tokens hn)

/-- A session over `a[b pr and (c pr]`, where a parenthesis is not closed. -/
def openGroupSession : ParseSession :=
  let tokens : List Located := [⟨0, .attribute "a"⟩, ⟨1, .openBracket⟩, ⟨2, .attribute "b"⟩,
    ⟨3, .space⟩, ⟨4, .keyword .present⟩, ⟨6, .space⟩, ⟨7, .keyword (.connective .and)⟩,
    ⟨10, .space⟩, ⟨11, .openParen⟩, ⟨12, .attribute "c"⟩, ⟨13, .space⟩, ⟨14, .keyword .present⟩,
    ⟨16, .closeBracket⟩, ⟨17, .eof⟩]
  ⟨⟨.lookahead, 2⟩, tokens, .ofTokens tokens⟩

/-- Everything in front of the bracket that closes can be completed. -/
theorem filter_begins_iff_openGroup :
    openGroupSession.filter.1 =
        .error (.mismatch (.token .closeParen) 12 16 .closeBracket) ∧
      (∀ n, Filter.Begins (firstTokens openGroupSession.tokens n) ↔ n ≤ 12) ∧
      openGroupSession.tokens[12]? = some ⟨16, .closeBracket⟩ := by
  have herror : openGroupSession.filter.1 =
      .error (.mismatch (.token .closeParen) 12 16 .closeBracket) := rfl
  exact ⟨herror, filter_begins_iff rfl rfl herror⟩

end ParseSession

end ScimQuery
